import Tftp.Proofs.Settings.Effect

namespace Tftp

open CommandLine

namespace Settings

variable {s : Settings} {blamed : Bytes} {isDirectory : Bytes → Bool}
  {rest : List (Flag × Bytes)} {ending : Ending}

theorem ends_missing_iff : Ends s isDirectory rest ending (.error (.missingValue blamed)) ↔
    rest = [] ∧ ending = .missingValue blamed := by
  constructor
  · intro h
    cases h with
    | refused _ _ refusal =>
      rcases set_error refusal with h | ⟨what, h⟩ | ⟨what, lo, hi, h⟩ <;> cases h
    | missing => exact ⟨rfl, rfl⟩
  · rintro ⟨rfl, rfl⟩
    exact .missing

theorem ends_unknown_iff : Ends s isDirectory rest ending (.error (.unknownOption blamed)) ↔
    rest = [] ∧ ending = .unknown blamed := by
  constructor
  · intro h
    cases h with
    | refused _ _ refusal =>
      rcases set_error refusal with h | ⟨what, h⟩ | ⟨what, lo, hi, h⟩ <;> cases h
    | unknown => exact ⟨rfl, rfl⟩
  · rintro ⟨rfl, rfl⟩
    exact .unknown

/-- The argument that is named for a missing value is the last one, and holds the option. The one
that is named for an option that there is not holds it too, unless it is a letter with letters
behind it: then the last argument is named that was passed over, or else the last one that was read,
or else the program. -/
theorem blamed_argument (start s : Settings) (isDirectory : Bytes → Bool) (program : Bytes)
    (args : List Bytes) (blamed : Bytes) :
    (start.ofCommandLine isDirectory program args = (s, .error (.missingValue blamed)) ↔
      ∃ front options read passed flags f, args = front ++ [blamed] ∧
        Words Flag.specs front options read passed ∧ Wanting Flag.specs blamed flags f ∧
        Effect start s (options ++ switches flags)) ∧
    (start.ofCommandLine isDirectory program args = (s, .error (.unknownOption blamed)) ↔
      ∃ front arg rest options read passed flags, args = front ++ arg :: rest ∧
        Words Flag.specs front options read passed ∧ Unknown Flag.specs arg flags ∧
        Effect start s (options ++ switches flags) ∧ (¬ Buried Flag.specs arg → blamed = arg) ∧
        (Buried Flag.specs arg →
          blamed = passed.getLast?.getD (read.getLast?.getD program))) := by
  constructor
  · rw [ofCommandLine_eq_iff]
    constructor
    · rintro ⟨taken, rest, ending, hreading, heffect, hends⟩
      obtain ⟨rfl, rfl⟩ := ends_missing_iff.1 hends
      rw [List.append_nil] at hreading
      obtain ⟨front, options, read, passed, flags, f, rfl, hwords, hwanting, rfl⟩ :=
        reading_missing_iff.1 hreading
      exact ⟨front, options, read, passed, flags, f, rfl, hwords, hwanting, heffect⟩
    · rintro ⟨front, options, read, passed, flags, f, rfl, hwords, hwanting, heffect⟩
      refine ⟨options ++ switches flags, [], _, ?_, heffect, ends_missing_iff.2 ⟨rfl, rfl⟩⟩
      rw [List.append_nil, reading_missing_iff]
      exact ⟨front, options, read, passed, flags, f, rfl, hwords, hwanting, rfl⟩
  · rw [ofCommandLine_eq_iff]
    constructor
    · rintro ⟨taken, rest, ending, hreading, heffect, hends⟩
      obtain ⟨rfl, rfl⟩ := ends_unknown_iff.1 hends
      rw [List.append_nil] at hreading
      obtain ⟨front, arg, rest, options, read, passed, flags, rfl, hwords, hunknown, rfl, hblamed⟩ :=
        reading_unknown_iff.1 hreading
      exact ⟨front, arg, rest, options, read, passed, flags, rfl, hwords, hunknown, heffect, hblamed⟩
    · rintro ⟨front, arg, rest, options, read, passed, flags, rfl, hwords, hunknown, heffect,
        hblamed⟩
      refine ⟨options ++ switches flags, [], _, ?_, heffect, ends_unknown_iff.2 ⟨rfl, rfl⟩⟩
      rw [List.append_nil, reading_unknown_iff]
      exact ⟨front, arg, rest, options, read, passed, flags, rfl, hwords, hunknown, rfl, hblamed⟩

/-- The argument that is named need not hold an option: it can be the name of the program, the value
of another option, or an argument that was passed over. -/
theorem blamed_elsewhere :
    (({} : Settings).ofCommandLine (fun _ => true) (ascii "tftpffd") [ascii "-xz"]).2 =
      .error (.unknownOption (ascii "tftpffd")) ∧
    (({} : Settings).ofCommandLine (fun _ => true) (ascii "tftpffd")
      [ascii "-p", ascii "70", ascii "-xz"]).2 = .error (.unknownOption (ascii "70")) ∧
    (({} : Settings).ofCommandLine (fun _ => true) (ascii "tftpffd") [ascii "file", ascii "-xz"]).2 =
      .error (.unknownOption (ascii "file")) ∧
    ¬ ∃ blamed ∈ [ascii "tftpffd", ascii "70", ascii "file"],
      ∃ flags, Unknown Flag.specs blamed flags := by
  refine ⟨by decide +kernel, by decide +kernel, by decide +kernel, ?_⟩
  rintro ⟨blamed, hblamed, flags, hunknown⟩
  have hhead : ∀ b ∈ [ascii "tftpffd", ascii "70", ascii "file"], b.head? ≠ some 45 := by
    decide
  exact hhead blamed hblamed hunknown.head?_eq

end Settings
end Tftp
