import Mathlib.Data.List.Forall2
import Mathlib.Data.List.Perm.Subperm
import Mathlib.Tactic.Common
import Tftp.Proofs.Decimal
import Tftp.Transfer

namespace Tftp

/-! Names -/

def SameLetter (a b : UInt8) : Prop :=
  a = b ∨ (65 ≤ a ∧ a ≤ 90 ∧ b = a + 32) ∨ (65 ≤ b ∧ b ≤ 90 ∧ a = b + 32)

theorem Bytes.lowerByte_eq_iff {a b : UInt8} : lowerByte a = lowerByte b ↔ SameLetter a b := by
  simp only [lowerByte, SameLetter, UInt8.le_iff_toNat_le, ← UInt8.toNat_inj, UInt8.reduceToNat]
  have ha := a.toNat_lt
  have hb := b.toNat_lt
  split <;> split <;> simp only [UInt8.toNat_add, UInt8.reduceToNat] <;> omega

theorem Bytes.sameName_iff {a b : Bytes} : sameName a b ↔ List.Forall₂ SameLetter a b := by
  have hlower : List.Forall₂ (fun x y => lowerByte x = lowerByte y) a b ↔ lower a = lower b := by
    rw [lower, lower, ← List.forall₂_map_right_iff, ← List.forall₂_map_left_iff,
      List.forall₂_eq_eq_eq]
  simp only [lowerByte_eq_iff] at hlower
  rw [sameName, beq_iff_eq, hlower]

namespace OptionKind

theorem name_injective {k l : OptionKind} (h : k.name = l.name) : k = l := by
  revert h
  cases k <;> cases l <;> decide

theorem lower_name_injective {k l : OptionKind} (h : Bytes.lower k.name = Bytes.lower l.name) :
    k = l := by
  revert h
  cases k <;> cases l <;> decide

theorem sameName_of_ofName? {name : Bytes} {k : OptionKind} (h : ofName? name = some k) :
    Bytes.sameName name k.name := by
  unfold ofName? at h
  have hsame := List.find?_some h
  exact hsame

theorem ofName?_eq_some_iff {name : Bytes} {k : OptionKind} :
    ofName? name = some k ↔ List.Forall₂ SameLetter name k.name := by
  rw [← Bytes.sameName_iff]
  constructor
  · exact sameName_of_ofName?
  · intro h
    have hsome : (ofName? name).isSome := List.find?_isSome.2 ⟨k, by cases k <;> simp, h⟩
    obtain ⟨l, hl⟩ := Option.isSome_iff_exists.1 hsome
    have hsame := sameName_of_ofName? hl
    rw [hl, lower_name_injective ((beq_iff_eq.1 hsame).symm.trans (beq_iff_eq.1 h))]

def least : OptionKind → Nat
  | .blockSize => minBlockSize
  | .timeout => 1
  | .transferSize => 0

def greatest : OptionKind → Nat
  | .blockSize => maxBlockSize
  | .timeout => 255
  | .transferSize => 2 ^ 64 - 1

theorem greatest_lt (k : OptionKind) : k.greatest < 2 ^ 64 := by
  cases k <;> decide

end OptionKind

/-! Values -/

namespace Choice

def InRange : Choice → Prop
  | .blockSize n => minBlockSize ≤ n ∧ n ≤ maxBlockSize
  | .timeout n => 1 ≤ n ∧ n ≤ 255
  | .transferSize _ => True

def number : Choice → Nat
  | .blockSize n => n
  | .timeout n => n.toNat
  | .transferSize n => n.toNat

theorem eq_of_number {c d : Choice} (hk : c.kind = d.kind) (hn : c.number = d.number) : c = d := by
  cases c <;> cases d <;> cases hk
  · exact congrArg _ hn
  · exact congrArg _ (UInt32.toNat_inj.1 hn)
  · exact congrArg _ (UInt64.toNat_inj.1 hn)

theorem inRange_iff {c : Choice} :
    c.InRange ↔ c.kind.least ≤ c.number ∧ c.number ≤ c.kind.greatest := by
  cases c with
  | blockSize n => exact Iff.rfl
  | timeout n => exact Iff.rfl
  | transferSize n => exact iff_of_true trivial ⟨Nat.zero_le _, Nat.le_sub_one_of_lt n.toNat_lt⟩

theorem InRange.number_lt {c : Choice} (h : c.InRange) : c.number < 2 ^ 64 :=
  Nat.lt_of_le_of_lt (inRange_iff.1 h).2 c.kind.greatest_lt

theorem value_eq (c : Choice) : c.value = decimal c.number := by
  cases c <;> rfl

theorem ofValue?_eq_some_iff {k : OptionKind} {value : Bytes} {c : Choice} :
    ofValue? k value = some c ↔ c.kind = k ∧ Numeral value c.number ∧ c.InRange := by
  constructor
  · intro h
    unfold ofValue? at h
    cases hn : decimal? value with
    | none => simp [hn] at h
    | some n =>
      have hvalue := decimal?_eq_some_iff.1 hn
      simp only [hn] at h
      cases k with
      | blockSize =>
        obtain ⟨hr, hc⟩ := Option.ite_none_right_eq_some.1 h
        cases hc
        exact ⟨rfl, hvalue, hr⟩
      | timeout =>
        obtain ⟨⟨h1, h2⟩, hc⟩ := Option.ite_none_right_eq_some.1 h
        cases hc
        have h1 : 1 ≤ n.toNat := h1
        have h2 : n.toNat ≤ 255 := h2
        have hn : n.toUInt32.toNat = n.toNat := by
          rw [UInt64.toNat_toUInt32]
          exact Nat.mod_eq_of_lt (by omega)
        refine ⟨rfl, by rwa [number, hn], ?_⟩
        constructor <;> rw [UInt32.le_iff_toNat_le, hn]
        · exact h1
        · exact h2
      | transferSize =>
        cases h
        exact ⟨rfl, hvalue, trivial⟩
  · rintro ⟨rfl, hvalue, hr⟩
    have hlt := hr.number_lt
    have hn : decimal? value = some c.number.toUInt64 :=
      decimal?_eq_some_iff.2 (by rwa [toNat_toUInt64 hlt])
    unfold ofValue?
    rw [hn]
    cases c with
    | blockSize n =>
      have hnat : n.toUInt64.toNat = n := toNat_toUInt64 hlt
      simp only [kind, number, hnat]
      exact if_pos hr
    | timeout n =>
      have hnat : n.toNat.toUInt64.toNat = n.toNat := toNat_toUInt64 hlt
      have hword : n.toNat.toUInt64.toUInt32 = n := by
        rw [← UInt32.toNat_inj, UInt64.toNat_toUInt32, hnat]
        exact Nat.mod_eq_of_lt n.toNat_lt
      have hbounds : (1 : UInt64) ≤ n.toNat.toUInt64 ∧ n.toNat.toUInt64 ≤ 255 := by
        rw [UInt64.le_iff_toNat_le, UInt64.le_iff_toNat_le, hnat]
        exact inRange_iff.1 hr
      simp only [kind, number, hword]
      exact if_pos hbounds
    | transferSize n =>
      exact congrArg (fun m => some (Choice.transferSize m)) (UInt64.ofNat_toNat)

end Choice

/-- An entry of a request proposes a number for a kind: the kind by its name in any case, the number
by a numeral, and in the range of the kind. -/
structure OptionField.Proposes (o : OptionField) (k : OptionKind) (n : Nat) : Prop where
  name : List.Forall₂ SameLetter o.name k.name
  value : Numeral o.value n
  least : k.least ≤ n
  greatest : n ≤ k.greatest

theorem OptionField.Proposes.unique {o : OptionField} {k l : OptionKind} {m n : Nat}
    (hm : o.Proposes k m) (hn : o.Proposes l n) : k = l ∧ m = n :=
  ⟨Option.some.inj ((OptionKind.ofName?_eq_some_iff.2 hm.name).symm.trans
    (OptionKind.ofName?_eq_some_iff.2 hn.name)), hm.value.unique hn.value⟩

theorem OptionField.Proposes.exists_choice {o : OptionField} {k : OptionKind} {n : Nat}
    (h : o.Proposes k n) : ∃ c : Choice, c.kind = k ∧ c.number = n := by
  have hg := h.greatest
  cases k with
  | blockSize => exact ⟨.blockSize n, rfl, rfl⟩
  | timeout =>
    refine ⟨.timeout n.toUInt32, rfl, ?_⟩
    exact Nat.mod_eq_of_lt (Nat.lt_of_le_of_lt hg (by decide))
  | transferSize =>
    exact ⟨.transferSize n.toUInt64, rfl, toNat_toUInt64 (Nat.lt_of_le_of_lt hg (by decide))⟩

theorem OptionField.proposes_iff {o : OptionField} {c : Choice} :
    o.Proposes c.kind c.number ↔
      OptionKind.ofName? o.name = some c.kind ∧ Choice.ofValue? c.kind o.value = some c := by
  rw [OptionKind.ofName?_eq_some_iff, Choice.ofValue?_eq_some_iff, Choice.inRange_iff]
  exact ⟨fun h => ⟨h.name, rfl, h.value, h.least, h.greatest⟩,
    fun ⟨hname, _, hvalue, hl, hg⟩ => ⟨hname, hvalue, hl, hg⟩⟩

def asked? (k : OptionKind) (options : List OptionField) : Option Choice :=
  options.findSome? fun o =>
    if OptionKind.ofName? o.name = some k then Choice.ofValue? k o.value else none

theorem asked?_singleton_eq_some_iff {k : OptionKind} {o : OptionField} {c : Choice} :
    asked? k [o] = some c ↔ c.kind = k ∧ o.Proposes k c.number := by
  rw [asked?, List.findSome?_singleton, Option.ite_none_right_eq_some]
  constructor
  · rintro ⟨hname, hvalue⟩
    obtain ⟨rfl, -⟩ := Choice.ofValue?_eq_some_iff.1 hvalue
    exact ⟨rfl, OptionField.proposes_iff.2 ⟨hname, hvalue⟩⟩
  · rintro ⟨rfl, h⟩
    exact OptionField.proposes_iff.1 h

theorem asked?_singleton_eq_none_iff {k : OptionKind} {o : OptionField} :
    asked? k [o] = none ↔ ∀ n, ¬ o.Proposes k n := by
  constructor
  · intro hnone n h
    obtain ⟨c, hk, rfl⟩ := h.exists_choice
    exact nomatch hnone.symm.trans (asked?_singleton_eq_some_iff.2 ⟨hk, h⟩)
  · intro h
    rw [Option.eq_none_iff_forall_ne_some]
    exact fun c hc => h c.number (asked?_singleton_eq_some_iff.1 hc).2

/-! What becomes of an entry -/

namespace Accepted

def choice? (a : Accepted) (k : OptionKind) : Option Choice := a.choices.find? (·.kind = k)

theorem kind_of_choice? {a : Accepted} {k : OptionKind} {c : Choice} (h : a.choice? k = some c) :
    c.kind = k := by
  simpa using List.find?_some h

theorem isSome_choice? (a : Accepted) (k : OptionKind) : (a.choice? k).isSome = a.has k := by
  rw [Bool.eq_iff_iff, choice?, has, List.find?_isSome, List.any_eq_true]

theorem set_of_not_has {a : Accepted} {c : Choice} (h : a.has c.kind = false) :
    a.set c = ⟨a.choices ++ [c]⟩ := if_neg (by simp [h])

/-- An entry that proposes nothing new is passed over; any other is put behind the rest. -/
inductive Offered (a : Accepted) (o : OptionField) : Accepted → Prop
  | skipped (known : ∀ k n, o.Proposes k n → a.has k) : Offered a o a
  | taken (c : Choice) (new : a.has c.kind = false) (proposed : o.Proposes c.kind c.number) :
      Offered a o ⟨a.choices ++ [c]⟩

theorem offered (a : Accepted) (o : OptionField) : Offered a o (a.offer o).1 := by
  unfold offer
  cases hl : OptionKind.ofName? o.name with
  | none =>
    refine .skipped fun k n hp => ?_
    exact nomatch hl.symm.trans (OptionKind.ofName?_eq_some_iff.2 hp.name)
  | some l =>
    have hkind : ∀ k n, o.Proposes k n → l = k := fun k n hp =>
      Option.some.inj (hl.symm.trans (OptionKind.ofName?_eq_some_iff.2 hp.name))
    dsimp only
    split
    · rename_i hh
      exact .skipped fun k n hp => hkind k n hp ▸ hh
    · rename_i hh
      cases hc : Choice.ofValue? l o.value with
      | none =>
        refine .skipped fun k n hp => ?_
        obtain ⟨c, rfl, rfl⟩ := hp.exists_choice
        have hvalue := (OptionField.proposes_iff.1 hp).2
        rw [← hkind _ _ hp, hc] at hvalue
        cases hvalue
      | some c =>
        obtain ⟨rfl, -⟩ := Choice.ofValue?_eq_some_iff.1 hc
        have hnew : a.has c.kind = false := by simpa using hh
        dsimp only
        rw [set_of_not_has hnew]
        exact .taken c hnew (OptionField.proposes_iff.2 ⟨hl, hc⟩)

def InRange (a : Accepted) : Prop := ∀ c ∈ a.choices, c.InRange

theorem InRange.set {a : Accepted} (h : a.InRange) {c : Choice} (hc : c.InRange) :
    (a.set c).InRange := by
  intro d hd
  unfold Accepted.set at hd
  split at hd
  · obtain ⟨e, he, rfl⟩ := List.mem_map.1 hd
    split
    · exact hc
    · exact h e he
  · rcases List.mem_append.1 hd with hd | hd
    · exact h d hd
    · rw [List.mem_singleton.1 hd]
      exact hc

theorem kinds_set {a : Accepted} {c : Choice} (h : a.has c.kind) :
    (a.set c).choices.map Choice.kind = a.choices.map Choice.kind := by
  rw [set, if_pos h, List.map_map]
  apply List.map_congr_left
  intro d _
  simp only [Function.comp_apply]
  split
  · rename_i hd
    exact hd.symm
  · rfl

/-- Options that can be told to a peer: every value lies in its range, and no kind comes twice. -/
structure Tellable (a : Accepted) : Prop where
  inRange : a.InRange
  distinct : (a.choices.map Choice.kind).Nodup

theorem Tellable.offer {a : Accepted} (h : a.Tellable) (o : OptionField) :
    (a.offer o).1.Tellable := by
  have hoffered := a.offered o
  generalize (a.offer o).1 = b at hoffered
  cases hoffered with
  | skipped => exact h
  | taken c new proposed =>
    refine ⟨List.forall_mem_append.2 ⟨h.inRange, List.forall_mem_singleton.2 ?_⟩, ?_⟩
    · exact Choice.inRange_iff.2 ⟨proposed.least, proposed.greatest⟩
    · have hne : ∀ d ∈ a.choices, d.kind ≠ c.kind := by simpa [has] using new
      simpa [List.nodup_append, h.distinct] using hne

theorem Tellable.set {a : Accepted} (h : a.Tellable) {c : Choice} (hc : c.InRange)
    (hk : a.has c.kind) : (a.set c).Tellable :=
  ⟨h.inRange.set hc, (kinds_set hk).symm ▸ h.distinct⟩

theorem Tellable.offerAll {a : Accepted} (h : a.Tellable) (os : List OptionField) :
    (a.offerAll os).1.Tellable := by
  induction os generalizing a with
  | nil => exact h
  | cons o os ih => exact ih (h.offer o)

theorem tellable_negotiate (os : List OptionField) : (negotiate os).1.Tellable :=
  Tellable.offerAll ⟨fun _ hc => absurd hc List.not_mem_nil, List.nodup_nil⟩ os

theorem Tellable.length_le {a : Accepted} (h : a.Tellable) : a.choices.length ≤ 3 := by
  have hsub : a.choices.map Choice.kind ⊆ [.blockSize, .timeout, .transferSize] := by
    intro k _
    cases k <;> simp
  simpa using (List.subperm_of_subset h.distinct hsub).length_le

theorem inRange_negotiate (os : List OptionField) : (negotiate os).1.InRange :=
  (tellable_negotiate os).inRange

theorem InRange.blockSize {a : Accepted} (h : a.InRange) :
    minBlockSize ≤ a.blockSize?.getD defaultBlockSize ∧
      a.blockSize?.getD defaultBlockSize ≤ maxBlockSize := by
  unfold Accepted.blockSize?
  cases hn : a.choices.findSome? _ with
  | none => decide
  | some n =>
    obtain ⟨c, hc, hn⟩ := List.exists_of_findSome?_eq_some hn
    cases c with
    | blockSize m =>
      cases hn
      exact h _ hc
    | timeout => cases hn
    | transferSize => cases hn

theorem findSome?_set_transferSize {α : Type} {f : Choice → Option α}
    (hf : ∀ n, f (.transferSize n) = none) (a : Accepted) (n : UInt64) :
    (a.set (.transferSize n)).choices.findSome? f = a.choices.findSome? f := by
  unfold Accepted.set
  split
  · rw [List.findSome?_map]
    congr 1
    funext c
    cases c with
    | transferSize m => exact (hf n).trans (hf m).symm
    | blockSize | timeout => rfl
  · rw [List.findSome?_append]
    simp [hf]

theorem timeout?_set_transferSize (a : Accepted) (n : UInt64) :
    (a.set (.transferSize n)).timeout? = a.timeout? :=
  findSome?_set_transferSize (fun _ => rfl) a n

/-! What is accepted of each kind -/

theorem choice?_offer (a : Accepted) (o : OptionField) (k : OptionKind) :
    (a.offer o).1.choice? k = (a.choice? k).or (asked? k [o]) := by
  have hoffered := a.offered o
  generalize (a.offer o).1 = b at hoffered ⊢
  cases hoffered with
  | skipped known =>
    cases hc : a.choice? k with
    | some c => rfl
    | none =>
      have hnone : asked? k [o] = none := asked?_singleton_eq_none_iff.2 fun n hp => by
        have hhas := known k n hp
        rw [← isSome_choice?, hc] at hhas
        cases hhas
      rw [hnone]
      rfl
  | taken c new proposed =>
    have hasked : asked? k [o] = if c.kind = k then some c else none := by
      split
      · rename_i hk
        exact asked?_singleton_eq_some_iff.2 ⟨hk, hk ▸ proposed⟩
      · rename_i hk
        exact asked?_singleton_eq_none_iff.2 fun n hp => hk (proposed.unique hp).1
    rw [hasked]
    simp [choice?, List.find?_append, List.find?_singleton]

theorem choice?_offerAll (a : Accepted) (os : List OptionField) (k : OptionKind) :
    (a.offerAll os).1.choice? k = (a.choice? k).or (asked? k os) := by
  induction os generalizing a with
  | nil => exact (Option.or_none).symm
  | cons o os ih =>
    have hcons : asked? k (o :: os) = (asked? k [o]).or (asked? k os) := by
      rw [asked?, ← List.singleton_append, List.findSome?_append]
      rfl
    rw [hcons, ← Option.or_assoc, ← choice?_offer]
    exact ih _

theorem choice?_negotiate (os : List OptionField) (k : OptionKind) :
    (negotiate os).1.choice? k = asked? k os :=
  choice?_offerAll {} os k

theorem blockSize?_eq (a : Accepted) : a.blockSize? = (a.choice? .blockSize).map Choice.number := by
  unfold blockSize? choice?
  induction a.choices with
  | nil => rfl
  | cons c choices ih => cases c <;> simp [Choice.kind, Choice.number, ih]

theorem timeout?_eq (a : Accepted) :
    a.timeout?.map UInt32.toNat = (a.choice? .timeout).map Choice.number := by
  unfold timeout? choice?
  induction a.choices with
  | nil => rfl
  | cons c choices ih => cases c <;> simp [Choice.kind, Choice.number, ih]

theorem choice?_set_transferSize {a : Accepted} (h : a.has .transferSize) (n : UInt64)
    (k : OptionKind) :
    (a.set (.transferSize n)).choice? k =
      if k = .transferSize then some (.transferSize n) else a.choice? k := by
  let put : Choice → Choice := fun d => if d.kind = .transferSize then .transferSize n else d
  have hkind : (fun d => decide ((put d).kind = k)) = fun d => decide (d.kind = k) := by
    funext d
    cases d <;> rfl
  have hput : (a.set (.transferSize n)).choice? k = (a.choice? k).map put := by
    have hset : a.set (.transferSize n) = ⟨a.choices.map put⟩ := if_pos h
    rw [hset, choice?, List.find?_map]
    exact congrArg (fun p => (a.choices.find? p).map put) hkind
  rw [hput]
  split
  · rename_i hk
    obtain ⟨c, hc⟩ := Option.isSome_iff_exists.1 ((a.isSome_choice? .transferSize).trans h)
    rw [hk, hc, Option.map_some]
    exact congrArg some (if_pos (kind_of_choice? hc))
  · rename_i hk
    cases hc : a.choice? k with
    | none => rfl
    | some c =>
      rw [Option.map_some]
      exact congrArg some (if_neg (by rwa [kind_of_choice? hc]))

theorem find?_fields (a : Accepted) (k : OptionKind) :
    a.fields.find? (·.name = k.name) = (a.choice? k).map Choice.field := by
  have hname : (fun c : Choice => decide (c.field.name = k.name)) =
      fun c => decide (c.kind = k) := by
    funext c
    exact decide_eq_decide.2 ⟨OptionKind.name_injective, congrArg OptionKind.name⟩
  rw [fields, List.find?_map]
  exact congrArg (fun p => (a.choices.find? p).map Choice.field) hname

end Accepted

theorem Transfer.blockSize_new {η : Type} (peer : Endpoint) (d : Direction) (filename : Bytes)
    (file : η) (os : List OptionField) (limits : Limits) :
    minBlockSize ≤ (Transfer.new peer d filename file (negotiate os).1 limits).blockSize ∧
      (Transfer.new peer d filename file (negotiate os).1 limits).blockSize ≤ maxBlockSize :=
  (Accepted.inRange_negotiate os).blockSize

end Tftp
