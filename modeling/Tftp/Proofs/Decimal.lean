import Mathlib.Data.List.Induction
import Mathlib.Data.Nat.Digits.Defs
import Mathlib.Tactic.Common
import Tftp.Decimal

namespace Tftp

theorem toNat_digit (n : Nat) : (digit n).toNat = 48 + n % 10 := by
  have hdigit : ∀ d < 10, (48 + d.toUInt8).toNat = 48 + d := by decide
  exact hdigit _ (Nat.mod_lt n (by decide))

theorem isDigit_digit (n : Nat) : isDigit (digit n) := by
  have hlt : n % 10 < 10 := Nat.mod_lt n (by decide)
  simp only [isDigit, Bool.and_eq_true, decide_eq_true_eq, UInt8.le_iff_toNat_le, toNat_digit,
    UInt8.reduceToNat]
  omega

theorem toNat_toUInt64 {n : Nat} (h : n < 2 ^ 64) : n.toUInt64.toNat = n := by
  simpa using h

def digitValue (b : UInt8) : Nat := b.toNat - 48

theorem ofDigits_concat (text : Bytes) (b : UInt8) :
    Nat.ofDigits 10 ((text ++ [b]).reverse.map digitValue) =
      10 * Nat.ofDigits 10 (text.reverse.map digitValue) + digitValue b := by
  rw [List.reverse_concat, List.map_cons, Nat.ofDigits_cons, Nat.add_comm]

structure Numeral (text : Bytes) (n : Nat) : Prop where
  ne_nil : text ≠ []
  length : text.length ≤ 20
  digits : ∀ b ∈ text, 48 ≤ b ∧ b ≤ 57
  value : Nat.ofDigits 10 (text.reverse.map digitValue) = n

theorem isDigit_iff {b : UInt8} : isDigit b ↔ 48 ≤ b ∧ b ≤ 57 := by
  rw [isDigit, Bool.and_eq_true, decide_eq_true_eq, decide_eq_true_eq]

theorem addDigit_eq_some_iff {n m : UInt64} {b : UInt8} :
    addDigit n b = some m ↔ isDigit b ∧ 10 * n.toNat + digitValue b = m.toNat := by
  by_cases hb : isDigit b
  · obtain ⟨hlow, hhigh⟩ := isDigit_iff.1 hb
    have hlow : 48 ≤ b.toNat := hlow
    have hhigh : b.toNat ≤ 57 := hhigh
    have hd : (b.toUInt64 - 48).toNat = digitValue b := by
      rw [UInt64.toNat_sub_of_le _ _ (UInt64.le_iff_toNat_le.2 (by simpa using hlow))]
      simp [digitValue]
    have hroom : n > (0xffffffffffffffff - (b.toUInt64 - 48)) / 10 ↔
        2 ^ 64 ≤ 10 * n.toNat + digitValue b := by
      have hle : b.toUInt64 - 48 ≤ 0xffffffffffffffff := by
        rw [UInt64.le_iff_toNat_le, hd, digitValue]
        exact Nat.le_trans (Nat.sub_le _ _) (Nat.le_trans hhigh (by decide))
      rw [gt_iff_lt, UInt64.lt_iff_toNat_lt, UInt64.toNat_div, UInt64.toNat_sub_of_le _ _ hle, hd]
      have hmax : (0xffffffffffffffff : UInt64).toNat = 2 ^ 64 - 1 := rfl
      have hten : (10 : UInt64).toNat = 10 := rfl
      have hone : digitValue b ≤ 9 := by
        rw [digitValue]
        omega
      rw [hmax, hten]
      omega
    have hm := m.toNat_lt
    simp only [addDigit, hb, hroom, Bool.not_true, Bool.false_or, decide_eq_true_eq, true_and]
    split
    · exact iff_of_false nofun (by omega)
    · rename_i hfits
      rw [Option.some.injEq, ← UInt64.toNat_inj, UInt64.toNat_add, UInt64.toNat_mul, hd]
      have hten : (10 : UInt64).toNat = 10 := rfl
      rw [hten]
      omega
  · simp [addDigit, hb]

theorem foldlM_addDigit_eq_some_iff {text : Bytes} {n : UInt64} :
    text.foldlM addDigit 0 = some n ↔
      (∀ b ∈ text, isDigit b) ∧ Nat.ofDigits 10 (text.reverse.map digitValue) = n.toNat := by
  -- by the last digit, which counts least
  induction text using List.reverseRecOn generalizing n with
  | nil =>
    change some 0 = some n ↔ (∀ b ∈ [], isDigit b) ∧ 0 = n.toNat
    rw [Option.some.injEq, ← UInt64.toNat_inj]
    exact (and_iff_right nofun).symm
  | append_singleton text b ih =>
    simp only [List.foldlM_append, List.foldlM_cons, List.foldlM_nil, bind_pure,
      Option.bind_eq_bind, Option.bind_eq_some_iff, ih, addDigit_eq_some_iff, List.reverse_append,
      List.reverse_singleton, List.singleton_append, List.map_cons, Nat.ofDigits_cons,
      List.forall_mem_append, List.forall_mem_singleton]
    constructor
    · rintro ⟨m, ⟨hdigits, hvalue⟩, hb, hn⟩
      exact ⟨⟨hdigits, hb⟩, by rw [hvalue, ← hn, Nat.add_comm]⟩
    · rintro ⟨⟨hdigits, hb⟩, hn⟩
      have hlt := n.toNat_lt
      let m := Nat.ofDigits 10 (text.reverse.map digitValue)
      have hn : digitValue b + 10 * m = n.toNat := hn
      have hm : m.toUInt64.toNat = m := toNat_toUInt64 (by omega)
      exact ⟨m.toUInt64, ⟨hdigits, hm.symm⟩, hb, by rw [hm, Nat.add_comm, hn]⟩

theorem decimal?_eq_some_iff {text : Bytes} {n : UInt64} :
    decimal? text = some n ↔ Numeral text n.toNat := by
  unfold decimal?
  split
  · rename_i h
    rw [Bool.or_eq_true, List.isEmpty_iff, decide_eq_true_eq] at h
    refine iff_of_false nofun fun hn => ?_
    rcases h with h | h
    · exact hn.ne_nil h
    · exact Nat.not_lt_of_le hn.length h
  · rename_i h
    rw [Bool.or_eq_true, List.isEmpty_iff, decide_eq_true_eq, not_or, Nat.not_lt] at h
    rw [foldlM_addDigit_eq_some_iff]
    simp only [isDigit_iff]
    exact ⟨fun ⟨hdigits, hvalue⟩ => ⟨h.1, h.2, hdigits, hvalue⟩,
      fun hn => ⟨hn.digits, hn.value⟩⟩

theorem Numeral.unique {text : Bytes} {m n : Nat} (hm : Numeral text m) (hn : Numeral text n) :
    m = n := hm.value.symm.trans hn.value

theorem addDigit_digit {n : Nat} (h : n < 2 ^ 64) :
    addDigit (n / 10).toUInt64 (digit n) = some n.toUInt64 := by
  refine addDigit_eq_some_iff.2 ⟨isDigit_digit n, ?_⟩
  rw [toNat_toUInt64 h, toNat_toUInt64 (Nat.lt_of_le_of_lt (Nat.div_le_self n 10) h), digitValue,
    toNat_digit]
  omega

theorem foldlM_decimal {n : Nat} (h : n < 2 ^ 64) :
    (decimal n).foldlM addDigit 0 = some n.toUInt64 := by
  induction n using decimal.induct with
  | case1 n hn =>
    rw [decimal, if_pos hn]
    have hone := addDigit_digit h
    rw [Nat.div_eq_of_lt hn] at hone
    simpa using hone
  | case2 n hn ih =>
    rw [decimal, if_neg hn, List.foldlM_append, ih (Nat.lt_of_le_of_lt (Nat.div_le_self n 10) h)]
    simpa using addDigit_digit h

theorem length_decimal_le {n k : Nat} (h : n < 10 ^ (k + 1)) : (decimal n).length ≤ k + 1 := by
  induction k generalizing n with
  | zero => rw [decimal, if_pos (by simpa using h)]; simp
  | succ k ih =>
    rw [decimal]
    split
    · simp
    · have hdiv : n / 10 < 10 ^ (k + 1) := by
        rw [Nat.div_lt_iff_lt_mul (by decide)]
        exact h
      simpa using ih hdiv

theorem decimal_ne_nil (n : Nat) : decimal n ≠ [] := by
  rw [decimal]
  split <;> simp

theorem decimal?_decimal {n : Nat} (h : n < 2 ^ 64) : decimal? (decimal n) = some n.toUInt64 := by
  have hlength : (decimal n).length ≤ 20 := length_decimal_le (by omega)
  rw [decimal?, foldlM_decimal h]
  simp [decimal_ne_nil, Nat.not_lt_of_le hlength]

theorem numeral_decimal {n : Nat} (h : n < 2 ^ 64) : Numeral (decimal n) n := by
  have hn := decimal?_eq_some_iff.1 (decimal?_decimal h)
  rwa [toNat_toUInt64 h] at hn

theorem isDigit_of_mem_decimal {n : Nat} {b : UInt8} (h : b ∈ decimal n) : isDigit b := by
  induction n using decimal.induct with
  | case1 n hn =>
    rw [decimal, if_pos hn, List.mem_singleton] at h
    rw [h]
    exact isDigit_digit n
  | case2 n hn ih =>
    rw [decimal, if_neg hn, List.mem_append, List.mem_singleton] at h
    rcases h with h | h
    · exact ih h
    · rw [h]
      exact isDigit_digit n

theorem zero_not_mem_decimal (n : Nat) : 0 ∉ decimal n :=
  fun h => absurd (isDigit_of_mem_decimal h) (by decide)

structure Shortest (text : Bytes) (n : Nat) : Prop where
  ne_nil : text ≠ []
  digits : ∀ b ∈ text, 48 ≤ b ∧ b ≤ 57
  alone : text.head? = some 48 → text.length = 1
  value : Nat.ofDigits 10 (text.reverse.map digitValue) = n

theorem digitValue_digit (n : Nat) : digitValue (digit n) = n % 10 := by
  rw [digitValue, toNat_digit, Nat.add_sub_cancel_left]

theorem eq_digit {b : UInt8} (h : 48 ≤ b ∧ b ≤ 57) {n : Nat} (hn : n % 10 = digitValue b) :
    b = digit n := by
  have hlow : 48 ≤ b.toNat := h.1
  apply UInt8.toNat_inj.1
  rw [toNat_digit, hn, digitValue]
  omega

theorem head?_decimal {n : Nat} (h : 0 < n) : (decimal n).head? ≠ some 48 := by
  induction n using decimal.induct with
  | case1 n hn =>
    rw [decimal, if_pos hn, List.head?_cons]
    intro h48
    have hzero : digitValue (digit n) = 0 := by rw [Option.some.inj h48]; rfl
    rw [digitValue_digit, Nat.mod_eq_of_lt hn] at hzero
    omega
  | case2 n hn ih =>
    have ih := ih (by omega)
    rw [decimal, if_neg hn]
    cases hd : decimal (n / 10) with
    | nil => exact absurd hd (decimal_ne_nil _)
    | cons b text =>
      rw [hd] at ih
      exact ih

theorem shortest_decimal (n : Nat) : Shortest (decimal n) n where
  ne_nil := decimal_ne_nil n
  digits b hb := isDigit_iff.1 (isDigit_of_mem_decimal hb)
  alone h := by
    cases n with
    | zero =>
      rw [decimal, if_pos (by decide)]
      rfl
    | succ n => exact absurd h (head?_decimal n.succ_pos)
  value := by
    induction n using decimal.induct with
    | case1 n hn =>
      rw [decimal, if_pos hn]
      simpa [digitValue_digit] using Nat.mod_eq_of_lt hn
    | case2 n hn ih =>
      rw [decimal, if_neg hn, ofDigits_concat, ih, digitValue_digit]
      omega

theorem Shortest.eq_decimal {text : Bytes} {n : Nat} (h : Shortest text n) : text = decimal n := by
  -- by the last digit, which is printed last
  induction text using List.reverseRecOn generalizing n with
  | nil => exact absurd rfl h.ne_nil
  | append_singleton text b ih =>
    have hb := h.digits b (List.mem_append_right text (List.mem_singleton_self b))
    have hlow : 48 ≤ b.toNat := hb.1
    have hhigh : b.toNat ≤ 57 := hb.2
    have hvalue := h.value
    rw [ofDigits_concat] at hvalue
    cases text with
    | nil =>
      have hone : digitValue b = n := (Nat.zero_add _).symm.trans hvalue
      have hn : n < 10 := by
        rw [← hone, digitValue]
        omega
      rw [decimal, if_pos hn, List.nil_append, eq_digit hb ((Nat.mod_eq_of_lt hn).trans hone.symm)]
    | cons x text =>
      have hx : x ≠ 48 := by
        rintro rfl
        simpa using h.alone rfl
      have hfront := ih {
        ne_nil := List.cons_ne_nil x text
        digits := fun c hc => h.digits c (List.mem_append_left [b] hc)
        alone := fun hhead => absurd (Option.some.inj hhead) hx
        value := rfl }
      generalize Nat.ofDigits 10 ((x :: text).reverse.map digitValue) = m at hvalue hfront
      have hm : 0 < m := by
        apply Nat.pos_of_ne_zero
        rintro rfl
        rw [decimal, if_pos (by decide)] at hfront
        exact hx (List.cons.inj hfront).1
      have hd : digitValue b < 10 := by
        rw [digitValue]
        omega
      rw [decimal, if_neg (by omega), hfront, eq_digit hb (n := n) (by omega)]
      congr 2
      omega

end Tftp
