import Tftp.Negotiation
import Tftp.Proofs.Decimal

namespace Tftp

/-- The reading of a text comes to the digit `b` with the number `n` and goes on with `m`. -/
structure Passes (text front : Bytes) (b : UInt8) (n m : UInt64) : Prop where
  digit : front ++ [b] <+: text
  held : front.foldlM addDigit 0 = some n
  next : addDigit n b = some m

/-- Neither the product nor the sum behind the next number wraps around. -/
structure Unwrapped (n : UInt64) (b : UInt8) (m : UInt64) : Prop where
  next : m = n * 10 + (b.toUInt64 - 48)
  product : (n * 10).toNat = n.toNat * 10
  sum : (n * 10 + (b.toUInt64 - 48)).toNat = n.toNat * 10 + digitValue b

theorem unwrapped_addDigit {n m : UInt64} {b : UInt8} (h : addDigit n b = some m) :
    Unwrapped n b m := by
  have hm : m = n * 10 + (b.toUInt64 - 48) := by
    unfold addDigit at h
    dsimp only at h
    split at h
    · cases h
    · exact (Option.some.inj h).symm
  have hvalue := (addDigit_eq_some_iff.1 h).2
  have hlt := m.toNat_lt
  refine ⟨hm, ?_, ?_⟩
  · have hten : (10 : UInt64).toNat = 10 := rfl
    rw [UInt64.toNat_mul, hten]
    omega
  · rw [← hm, ← hvalue, Nat.mul_comm]

theorem Passes.held_value {text front : Bytes} {b : UInt8} {n m : UInt64}
    (h : Passes text front b n m) :
    n.toNat = Nat.ofDigits 10 (front.reverse.map digitValue) :=
  (foldlM_addDigit_eq_some_iff.1 h.held).2.symm

theorem isSome_decimal?_iff {text : Bytes} :
    (decimal? text).isSome ↔ ∃ n < 2 ^ 64, Numeral text n := by
  rw [Option.isSome_iff_exists]
  constructor
  · rintro ⟨n, hn⟩
    exact ⟨n.toNat, n.toNat_lt, decimal?_eq_some_iff.1 hn⟩
  · rintro ⟨n, hlt, hn⟩
    refine ⟨n.toUInt64, decimal?_eq_some_iff.2 ?_⟩
    rwa [toNat_toUInt64 hlt]

theorem Accepted.offer_unread {text : Bytes} (h : decimal? text = none) (a : Accepted)
    (name : Bytes) : (a.offer ⟨name, text⟩).1 = a := by
  have hvalue : ∀ k, Choice.ofValue? k text = none := by
    intro k
    rw [Choice.ofValue?, h]
  unfold Accepted.offer
  dsimp only
  cases OptionKind.ofName? name with
  | none => rfl
  | some k =>
    dsimp only
    rw [hvalue k]
    split <;> rfl

structure Strict (text : Bytes) : Prop where
  accepted : (decimal? text).isSome ↔ ∃ n < 2 ^ 64, Numeral text n
  value : ∀ n, decimal? text = some n → Numeral text n.toNat
  /-- In front of each digit the number held is what the digits before it denote. -/
  held : ∀ front b n m, Passes text front b n m →
    n.toNat = Nat.ofDigits 10 (front.reverse.map digitValue)
  unwrapped : ∀ front b n m, Passes text front b n m → Unwrapped n b m
  /-- Where there is no number to be had, what was there before stays. -/
  unchanged : (¬∃ n < 2 ^ 64, Numeral text n) →
    (∀ old, (decimal? text).getD old = old) ∧
      ∀ (a : Accepted) (name : Bytes), (a.offer ⟨name, text⟩).1 = a

/-- Every text is read strictly, and every number that fits 64 bits is read back as it is printed. -/
theorem decimal_strict (text : Bytes) (n : UInt64) :
    Strict text ∧ decimal? (decimal n.toNat) = some n := by
  constructor
  · exact {
      accepted := isSome_decimal?_iff
      value := fun m => decimal?_eq_some_iff.1
      held := fun front b m m' h => h.held_value
      unwrapped := fun front b m m' h => unwrapped_addDigit h.next
      unchanged := fun hn => by
        have hnone : decimal? text = none := by
          rwa [← Option.not_isSome_iff_eq_none, isSome_decimal?_iff]
        exact ⟨fun old => by rw [hnone]; rfl, Accepted.offer_unread hnone⟩ }
  · rw [decimal?_decimal n.toNat_lt]
    exact congrArg some (UInt64.ofNat_toNat)

example : decimal? (ascii "18446744073709551615") = some 18446744073709551615 ∧
    decimal? (ascii "18446744073709551616") = none ∧
    decimal? (ascii "00000000000000000007") = some 7 ∧
    decimal? (ascii "000000000000000000007") = none := by decide +kernel

end Tftp
