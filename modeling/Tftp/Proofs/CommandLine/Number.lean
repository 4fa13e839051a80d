import Mathlib.Data.List.TakeWhile
import Tftp.CommandLine.Number
import Tftp.Proofs.Decimal

namespace Tftp
namespace CommandLine

structure Digits (text : Bytes) (n : Nat) : Prop where
  ne_nil : text ≠ []
  digits : ∀ b ∈ text, isDigit b
  value : Nat.ofDigits 10 (text.reverse.map digitValue) = n

inductive Denotes : Bytes → Int → Prop
  | unsigned {text : Bytes} {n : Nat} (h : Digits text n) : Denotes text n
  | plus {text : Bytes} {n : Nat} (h : Digits text n) : Denotes (43 :: text) n
  | minus {text : Bytes} {n : Nat} (h : Digits text n) : Denotes (45 :: text) (-n)
  | blank {b : UInt8} {text : Bytes} {z : Int} (hb : isBlank b) (h : Denotes text z) :
    Denotes (b :: text) z

def signed (negative : Bool) (n : Nat) : Int := if negative then -n else n

variable {b : UInt8} {text : Bytes} {n : Nat} {z : Int}

theorem number_eq (digits : Bytes) :
    number digits = Nat.ofDigits 10 (digits.reverse.map digitValue) := by
  -- by the last digit, which counts least
  induction digits using List.reverseRecOn with
  | nil => rfl
  | append_singleton digits b ih =>
    rw [number] at ih ⊢
    rw [List.foldl_append, List.foldl_cons, List.foldl_nil, ih, ofDigits_concat, digitValue]
    omega

theorem digits_iff : Digits text n ↔ text ≠ [] ∧ (∀ b ∈ text, isDigit b) ∧ number text = n := by
  rw [number_eq]
  exact ⟨fun h => ⟨h.ne_nil, h.digits, h.value⟩, fun ⟨hne, hd, hv⟩ => ⟨hne, hd, hv⟩⟩

theorem Digits.unique {m : Nat} (hm : Digits text m) (hn : Digits text n) : m = n :=
  hm.value.symm.trans hn.value

theorem not_blank_of_isDigit (h : isDigit b) : isBlank b = false ∧ b ≠ 45 ∧ b ≠ 43 := by
  obtain ⟨hlow, hhigh⟩ := isDigit_iff.1 h
  have hlow : 48 ≤ b.toNat := hlow
  refine ⟨?_, ?_, ?_⟩
  · rw [Bool.eq_false_iff]
    intro hb
    rw [isBlank, Bool.or_eq_true, Bool.and_eq_true, decide_eq_true_eq, decide_eq_true_eq,
      decide_eq_true_eq] at hb
    rcases hb with rfl | ⟨_, hb⟩
    · revert hlow
      decide
    · have hb : b.toNat ≤ 13 := hb
      omega
  · rintro rfl
    revert hlow
    decide
  · rintro rfl
    revert hlow
    decide

theorem cutSign_cons (h45 : b ≠ 45) (h43 : b ≠ 43) : cutSign (b :: text) = (false, b :: text) := by
  rw [cutSign]
  · intro text h
    exact h45 (List.cons.inj h).1
  · intro text h
    exact h43 (List.cons.inj h).1

theorem denotes_iff : Denotes text z ↔
    ∃ n, Digits (cutSign (text.dropWhile isBlank)).2 n ∧
      signed (cutSign (text.dropWhile isBlank)).1 n = z := by
  constructor
  · intro h
    induction h with
    | @unsigned text n h =>
      obtain ⟨b, text, rfl⟩ := List.exists_cons_of_ne_nil h.ne_nil
      obtain ⟨hb, h45, h43⟩ := not_blank_of_isDigit (h.digits b List.mem_cons_self)
      rw [List.dropWhile_cons, hb, if_neg Bool.false_ne_true, cutSign_cons h45 h43]
      exact ⟨n, h, rfl⟩
    | @plus text n h => exact ⟨n, h, rfl⟩
    | @minus text n h => exact ⟨n, h, rfl⟩
    | blank hb _ ih =>
      rw [List.dropWhile_cons, if_pos hb]
      exact ih
  · intro h
    induction text with
    | nil =>
      obtain ⟨n, h, _⟩ := h
      exact absurd rfl h.ne_nil
    | cons b text ih =>
      rw [List.dropWhile_cons] at h
      split at h
      · exact .blank ‹_› (ih h)
      · obtain ⟨n, h, rfl⟩ := h
        by_cases h45 : b = 45
        · subst h45
          exact .minus h
        · by_cases h43 : b = 43
          · subst h43
            exact .plus h
          · rw [cutSign_cons h45 h43] at h ⊢
            exact .unsigned h

theorem Denotes.unique {y : Int} (hy : Denotes text y) (hz : Denotes text z) : y = z := by
  obtain ⟨m, hm, rfl⟩ := denotes_iff.1 hy
  obtain ⟨n, hn, rfl⟩ := denotes_iff.1 hz
  rw [hm.unique hn]

theorem wrap_signed (negative : Bool) (h : n < UInt64.size) :
    ((if negative then (UInt64.size - n) % UInt64.size else n : Nat) : Int) =
      signed negative n % 2 ^ 64 := by
  have hsize : UInt64.size = 18446744073709551616 := rfl
  rw [hsize] at h ⊢
  cases negative <;> simp only [signed, Bool.false_eq_true, if_true, if_false] <;> omega

theorem natAbs_signed (negative : Bool) (n : Nat) : (signed negative n).natAbs = n := by
  cases negative <;> simp [signed]

theorem leadingNumber?_eq_some_nil_iff : leadingNumber? text = some (n, []) ↔
    ∃ z, Denotes text z ∧ z.natAbs < 2 ^ 64 ∧ (n : Int) = z % 2 ^ 64 := by
  simp only [denotes_iff]
  rw [leadingNumber?]
  rcases cutSign (text.dropWhile isBlank) with ⟨negative, tail⟩
  dsimp only
  constructor
  · intro h
    split at h
    · cases h
    · rename_i hread
      rw [Option.some.injEq, Prod.mk.injEq, List.dropWhile_eq_nil_iff] at h
      obtain ⟨rfl, hdigits⟩ := h
      rw [List.takeWhile_eq_self_iff.2 hdigits, Bool.or_eq_true, List.isEmpty_iff,
        decide_eq_true_eq, not_or, Nat.not_le] at hread
      rw [List.takeWhile_eq_self_iff.2 hdigits]
      refine ⟨_, ⟨number tail, digits_iff.2 ⟨hread.1, hdigits, rfl⟩, rfl⟩, ?_,
        wrap_signed negative hread.2⟩
      rw [natAbs_signed]
      exact hread.2
  · rintro ⟨z, ⟨m, hm, rfl⟩, hlt, hn⟩
    obtain ⟨hne, hdigits, rfl⟩ := digits_iff.1 hm
    rw [natAbs_signed] at hlt
    have hsize : ¬ number tail ≥ UInt64.size := Nat.not_le.2 hlt
    rw [List.takeWhile_eq_self_iff.2 hdigits, List.dropWhile_eq_nil_iff.2 hdigits]
    simp only [List.isEmpty_iff, hne, hsize, decide_false, Bool.or_false]
    have hwrap := (wrap_signed negative hlt).trans hn.symm
    simpa using Int.ofNat.inj hwrap

end CommandLine
end Tftp
