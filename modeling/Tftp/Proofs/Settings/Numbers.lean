import Tftp.Proofs.CommandLine.Number
import Tftp.Settings

/-!
The options that take a number. A text is taken for the integer it denotes, if that is in the range
of the option; but behind a blank a minus sign is lost, and what is left counts down from 2^64.
-/

namespace Tftp

open CommandLine

def Flag.numeric? : Flag → Option (Bytes × Nat × Nat)
  | .port => some (ascii "port", 1, 65535)
  | .timeout => some (ascii "timeout", 1, 255)
  | .retries => some (ascii "retries", 0, 255)
  | .maxSessions => some (ascii "max-sessions", 1, 1000000)
  | .addr => none
  | .dir => none
  | .user => none
  | .group => none
  | .noOverwrite => none
  | .help => none

structure Taken (lo hi : Nat) (text : Bytes) (z : Int) (n : Nat) : Prop where
  denotes : Denotes text z
  unsigned : text.head? ≠ some 45 ∧ text.head? ≠ some 43
  lo_le : lo ≤ n
  le_hi : n ≤ hi
  value : z = n ∨ 0 < n ∧ z = n - 2 ^ 64

namespace Settings

def number? (s : Settings) : Flag → Option Nat
  | .port => some s.port.toNat
  | .timeout => some s.timeout
  | .retries => some s.retries
  | .maxSessions => some s.maxSessions
  | _ => none

def withNumber (s : Settings) (n : Nat) : Flag → Settings
  | .port => { s with port := n.toUInt16 }
  | .timeout => { s with timeout := n }
  | .retries => { s with retries := n }
  | .maxSessions => { s with maxSessions := n }
  | _ => s

variable {s s' : Settings} {f : Flag} {what text : Bytes} {lo hi n : Nat} {z : Int}

theorem numeric_lt (hf : f.numeric? = some (what, lo, hi)) : hi < 2 ^ 64 := by
  cases f <;> cases hf <;> decide

theorem number?_withNumber (hf : f.numeric? = some (what, lo, hi)) (h : n ≤ hi) :
    (s.withNumber n f).number? f = some n := by
  cases f with
  | port =>
    cases hf
    have hn : n.toUInt16.toNat = n := by
      simp only [Nat.toUInt16_eq, UInt16.toNat_ofNat']
      omega
    exact congrArg some hn
  | timeout | retries | maxSessions => rfl
  | addr | dir | user | group | noOverwrite | help => cases hf

theorem set_numeric (hf : f.numeric? = some (what, lo, hi)) (s : Settings) (text : Bytes) :
    s.set f text = (readNumber what lo hi text).map fun n => s.withNumber n f := by
  cases f <;> cases hf <;> rfl

theorem readNumber_eq_ok_iff (hhi : hi < 2 ^ 64) :
    readNumber what lo hi text = .ok n ↔ ∃ z, Taken lo hi text z n := by
  have hread : readNumber what lo hi text = .ok n ↔
      (text.head? ≠ some 45 ∧ text.head? ≠ some 43) ∧ leadingNumber? text = some (n, []) ∧
        lo ≤ n ∧ n ≤ hi := by
    rw [readNumber]
    split
    · rename_i hsign
      exact iff_of_false nofun fun h => not_or.2 h.1 hsign
    · rename_i hsign
      rw [and_iff_right (not_or.1 hsign)]
      cases leadingNumber? text with
      | none => exact iff_of_false nofun fun h => by cases h.1
      | some r =>
        obtain ⟨m, tail⟩ := r
        simp only [Bool.and_eq_true, List.isEmpty_iff, decide_eq_true_eq, Option.some.injEq,
          Prod.mk.injEq]
        split
        · rename_i h
          rw [Except.ok.injEq]
          constructor
          · rintro rfl
            exact ⟨⟨rfl, h.1.1⟩, h.1.2, h.2⟩
          · exact fun hn => hn.1.1
        · rename_i h
          refine iff_of_false nofun ?_
          rintro ⟨⟨rfl, rfl⟩, hlo, hle⟩
          exact h ⟨⟨rfl, hlo⟩, hle⟩
  rw [hread, leadingNumber?_eq_some_nil_iff]
  constructor
  · rintro ⟨hsign, ⟨z, hz, hlt, hn⟩, hlo, hle⟩
    exact ⟨z, hz, hsign, hlo, hle, by omega⟩
  · rintro ⟨z, hz, hsign, hlo, hle, hvalue⟩
    exact ⟨hsign, ⟨z, hz, by omega, by omega⟩, hlo, hle⟩

theorem readNumber_error {e : Refusal} (h : readNumber what lo hi text = .error e) :
    e = .notANumber what text ∨ e = .outOfRange what text lo hi := by
  unfold readNumber at h
  split at h
  · cases h
    exact .inl rfl
  · split at h
    · cases h
      exact .inl rfl
    · split at h
      · cases h
      · cases h
        exact .inr rfl

theorem blank_of_taken (h : Taken lo hi text z n) (hz : z < 0) :
    ∃ b rest, text = b :: rest ∧ isBlank b := by
  cases h.denotes with
  | unsigned | plus => omega
  | minus => exact absurd rfl h.unsigned.1
  | blank hb _ => exact ⟨_, _, rfl, hb⟩

theorem setAll_append {before : List (Flag × Bytes)} (h : s.setAll before = (s', none))
    (rest : List (Flag × Bytes)) : s.setAll (before ++ rest) = s'.setAll rest := by
  induction before generalizing s with
  | nil =>
    cases h
    rfl
  | cons o before ih =>
    obtain ⟨f, value⟩ := o
    rw [setAll] at h
    rw [List.cons_append, setAll]
    split at h
    · cases h
    · rw [if_neg ‹_›]
      cases hs : s.set f value with
      | error e =>
        rw [hs] at h
        cases h
      | ok next =>
        rw [hs] at h
        exact ih h

/-- An option sets the number that its text denotes, if that is in range; a negative number behind
a blank is counted modulo 2^64 before. Whatever else its text denotes, if anything, the command line
is refused, and the settings stay as the options in front of it have left them. -/
theorem number_taken (hf : f.numeric? = some (what, lo, hi)) (s : Settings) (text : Bytes) :
    (∀ s', s.set f text = .ok s' ↔
      ∃ z n, Taken lo hi text z n ∧ s' = s.withNumber n f ∧ s'.number? f = some n) ∧
    (∀ z n, Taken lo hi text z n →
      (∀ y, Denotes text y → y = z) ∧ (z < 0 → ∃ b rest, text = b :: rest ∧ isBlank b)) ∧
    ∀ (start : Settings) (isDirectory : Bytes → Bool) (program : Bytes) (args : List Bytes)
      (before rest : List (Flag × Bytes)),
      (scan Flag.specs program args).found = before ++ (f, text) :: rest →
      start.setAll before = (s, none) →
        (∀ z n, Taken lo hi text z n →
          start.setAll (scan Flag.specs program args).found = (s.withNumber n f).setAll rest) ∧
        ((∀ z n, ¬ Taken lo hi text z n) →
          ∃ e, (e = .notANumber what text ∨ e = .outOfRange what text lo hi) ∧
            start.ofCommandLine isDirectory program args = (s, .error e)) := by
  have hset := set_numeric hf s text
  have htaken : ∀ n, readNumber what lo hi text = .ok n ↔ ∃ z, Taken lo hi text z n := fun n =>
    readNumber_eq_ok_iff (numeric_lt hf)
  have hhelp : f ≠ .help := by
    rintro rfl
    cases hf
  refine ⟨fun s' => ?_, fun z n h => ⟨fun y hy => hy.unique h.denotes, blank_of_taken h⟩, ?_⟩
  · rw [hset]
    constructor
    · intro h
      cases hr : readNumber what lo hi text with
      | error e =>
        rw [hr] at h
        cases h
      | ok n =>
        rw [hr] at h
        cases h
        obtain ⟨z, hz⟩ := (htaken n).1 hr
        exact ⟨z, n, hz, rfl, number?_withNumber hf hz.le_hi⟩
    · rintro ⟨z, n, hz, rfl, _⟩
      rw [(htaken n).2 ⟨z, hz⟩]
      rfl
  · intro start isDirectory program args before rest hfound hbefore
    have hall := setAll_append hbefore ((f, text) :: rest)
    rw [← hfound, setAll, if_neg hhelp, hset] at hall
    constructor
    · intro z n hz
      rw [hall, (htaken n).2 ⟨z, hz⟩]
      rfl
    · intro hnone
      cases hr : readNumber what lo hi text with
      | ok n =>
        obtain ⟨z, hz⟩ := (htaken n).1 hr
        exact absurd hz (hnone z n)
      | error e =>
        rw [hr] at hall
        refine ⟨e, readNumber_error hr, ?_⟩
        rw [ofCommandLine, hall]
        rfl

theorem number_taken_behind_blank :
    Flag.port.numeric? = some (ascii "port", 1, 65535) ∧
      Taken 1 65535 (ascii " +70") 70 70 ∧
      ({} : Settings).set .port (ascii " +70") = .ok { port := 70 } ∧
      (∀ z n, ¬ Taken 1 65535 (ascii " -1") z n) ∧
      ∃ e, (e = .notANumber (ascii "port") (ascii " -1") ∨
          e = .outOfRange (ascii "port") (ascii " -1") 1 65535) ∧
        ({} : Settings).ofCommandLine (fun _ => true) (ascii "tftpffd")
          [ascii "-t7", ascii "--port", ascii " -1", ascii "-r9"] =
            ({ timeout := 7 }, .error e) := by
  have hdigits : Digits (ascii "70") 70 :=
    digits_iff.2 ⟨by decide, List.all_eq_true.1 (by decide), by decide⟩
  have htaken : Taken 1 65535 (ascii " +70") 70 70 :=
    ⟨.blank rfl (.plus hdigits), by decide, by decide, by decide, .inl rfl⟩
  have hdenotes : Denotes (ascii " -1") (-(1 : Nat)) :=
    .blank rfl (.minus (digits_iff.2 ⟨by decide, List.all_eq_true.1 (by decide), by decide⟩))
  have hnone : ∀ z n, ¬ Taken 1 65535 (ascii " -1") z n := by
    intro z n h
    have hz := h.denotes.unique hdenotes
    have hle := h.le_hi
    have hvalue := h.value
    omega
  have hport : Flag.port.numeric? = some (ascii "port", 1, 65535) := rfl
  refine ⟨hport, htaken, ((number_taken hport {} (ascii " +70")).1 _).2
    ⟨70, 70, htaken, rfl, rfl⟩, hnone, ?_⟩
  exact ((number_taken hport { timeout := 7 } (ascii " -1")).2.2 {} _ (ascii "tftpffd") _
    [(.timeout, ascii "7")] [(.retries, ascii "9")] (by decide +kernel) (by decide +kernel)).2 hnone

/-- Not every number that is taken is in range as it is written. -/
theorem not_taken_as_denoted : ¬ ∀ (start s : Settings) (isDirectory : Bytes → Bool)
    (program : Bytes) (args : List Bytes) (f : Flag) (what : Bytes) (lo hi : Nat) (text : Bytes)
    (z : Int), f.numeric? = some (what, lo, hi) →
    (f, text) ∈ (scan Flag.specs program args).found → Denotes text z →
    start.ofCommandLine isDirectory program args = (s, .ok .run) → lo ≤ z ∧ z ≤ hi := by
  intro h
  have hdigits : Digits (ascii "18446744073709551546") 18446744073709551546 :=
    digits_iff.2 ⟨by decide, List.all_eq_true.1 (by decide), by decide +kernel⟩
  have hrun : ({} : Settings).ofCommandLine (fun _ => true) (ascii "tftpffd")
      [ascii "--dir", ascii "d", ascii "--port", ascii " -18446744073709551546"] =
        ({ root := ascii "d", port := 70 }, .ok .run) := by
    decide +kernel
  have hrange := h _ _ _ _ _ .port _ _ _ (ascii " -18446744073709551546") _ rfl (by decide +kernel)
    (.blank rfl (.minus hdigits)) hrun
  revert hrange
  decide

end Settings
end Tftp
