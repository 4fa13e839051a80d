import Mathlib.Data.List.Induction
import Tftp.Proofs.Negotiation

namespace Tftp

/-- The first entry that proposes a number for a kind, by its place in the request. -/
structure FirstAt (os : List OptionField) (k : OptionKind) (i n : Nat) : Prop where
  proposes : ∃ o, os[i]? = some o ∧ o.Proposes k n
  first : ∀ j < i, ∀ o m, os[j]? = some o → ¬ o.Proposes k m

def OptionField.Spare (before : List OptionField) (o : OptionField) : Prop :=
  ∀ k n, o.Proposes k n → ∃ p ∈ before, ∃ m, p.Proposes k m

namespace FirstAt

variable {os : List OptionField} {k : OptionKind} {i j m n : Nat}

theorem lt_length (h : FirstAt os k i n) : i < os.length := by
  obtain ⟨o, ho, -⟩ := h.proposes
  exact (List.getElem?_eq_some_iff.1 ho).1

theorem place_unique (hi : FirstAt os k i m) (hj : FirstAt os k j n) : i = j := by
  obtain ⟨o, ho, hp⟩ := hi.proposes
  obtain ⟨p, hpj, hq⟩ := hj.proposes
  rcases Nat.lt_trichotomy i j with hlt | heq | hgt
  · exact absurd hp (hj.first i hlt o m ho)
  · exact heq
  · exact absurd hq (hi.first j hgt p n hpj)

theorem append (h : FirstAt os k i n) (more : List OptionField) : FirstAt (os ++ more) k i n where
  proposes := by
    obtain ⟨o, ho, hp⟩ := h.proposes
    exact ⟨o, by rw [List.getElem?_append_left h.lt_length, ho], hp⟩
  first j hj o m ho := by
    rw [List.getElem?_append_left (Nat.lt_trans hj h.lt_length)] at ho
    exact h.first j hj o m ho

theorem concat {o : OptionField} (hp : o.Proposes k n) (hnew : ∀ p ∈ os, ∀ m, ¬ p.Proposes k m) :
    FirstAt (os ++ [o]) k os.length n where
  proposes := ⟨o, by simp, hp⟩
  first j hj p m hpj := by
    rw [List.getElem?_append_left hj] at hpj
    exact hnew p (List.mem_of_getElem? hpj) m

end FirstAt

theorem asked?_eq_some_iff {k : OptionKind} {os : List OptionField} {c : Choice} :
    asked? k os = some c ↔ c.kind = k ∧ ∃ i, FirstAt os k i c.number := by
  have hone : ∀ o : OptionField, (if OptionKind.ofName? o.name = some k then
      Choice.ofValue? k o.value else none) = asked? k [o] := fun o => List.findSome?_singleton.symm
  rw [asked?, List.findSome?_eq_some_iff]
  simp only [hone, asked?_singleton_eq_some_iff, asked?_singleton_eq_none_iff]
  constructor
  · rintro ⟨before, o, after, rfl, ⟨hk, hp⟩, hfirst⟩
    refine ⟨hk, before.length, ⟨o, by simp, hp⟩, fun j hj p m hpj => ?_⟩
    rw [List.getElem?_append_left hj] at hpj
    exact hfirst p (List.mem_of_getElem? hpj) m
  · rintro ⟨hk, i, ⟨o, ho, hp⟩, hfirst⟩
    obtain ⟨hi, rfl⟩ := List.getElem?_eq_some_iff.1 ho
    refine ⟨os.take i, os[i], os.drop (i + 1), by simp, ⟨hk, hp⟩, fun p hmem m => ?_⟩
    obtain ⟨j, hj, rfl⟩ := List.mem_take_iff_getElem.1 hmem
    exact hfirst j (by omega) _ m (List.getElem?_eq_getElem (by omega))

namespace Accepted

def number? (a : Accepted) : OptionKind → Option Nat
  | .blockSize => a.blockSize?
  | .timeout => a.timeout?.map UInt32.toNat
  | .transferSize => a.transferSize?.map UInt64.toNat

def order (a : Accepted) : List OptionKind := a.choices.map Choice.kind

theorem transferSize?_eq (a : Accepted) :
    a.transferSize?.map UInt64.toNat = (a.choice? .transferSize).map Choice.number := by
  unfold transferSize? choice?
  induction a.choices with
  | nil => rfl
  | cons c choices ih => cases c <;> simp [Choice.kind, Choice.number, ih]

theorem number?_eq (a : Accepted) (k : OptionKind) :
    a.number? k = (a.choice? k).map Choice.number := by
  cases k with
  | blockSize => exact a.blockSize?_eq
  | timeout => exact a.timeout?_eq
  | transferSize => exact a.transferSize?_eq

theorem mem_order_iff {a : Accepted} {k : OptionKind} : k ∈ a.order ↔ a.has k := by
  simp [order, has]

theorem has_negotiate_iff {os : List OptionField} {k : OptionKind} :
    (negotiate os).1.has k ↔ ∃ o ∈ os, ∃ n, o.Proposes k n := by
  rw [← isSome_choice?, choice?_negotiate, asked?, List.findSome?_isSome_iff]
  refine exists_congr fun o => and_congr_right fun _ => ?_
  have hone : (if OptionKind.ofName? o.name = some k then
      Choice.ofValue? k o.value else none) = asked? k [o] := List.findSome?_singleton.symm
  rw [hone, ← not_iff_not, Option.not_isSome_iff_eq_none, asked?_singleton_eq_none_iff, not_exists]

theorem offerAll_append (a : Accepted) (os os' : List OptionField) :
    (a.offerAll (os ++ os')).1 = ((a.offerAll os).1.offerAll os').1 := by
  induction os generalizing a with
  | nil => rfl
  | cons o os ih => exact ih _

theorem negotiate_concat (os : List OptionField) (o : OptionField) :
    (negotiate (os ++ [o])).1 = ((negotiate os).1.offer o).1 :=
  offerAll_append {} os [o]

theorem offer_spare {before : List OptionField} {o : OptionField} (h : o.Spare before) :
    ((negotiate before).1.offer o).1 = (negotiate before).1 := by
  have hoffered := (negotiate before).1.offered o
  generalize ((negotiate before).1.offer o).1 = b at hoffered ⊢
  cases hoffered with
  | skipped => rfl
  | taken c new proposed => simp [has_negotiate_iff.2 (h c.kind c.number proposed)] at new

theorem negotiate_spare {before : List OptionField} {o : OptionField} (h : o.Spare before)
    (after : List OptionField) :
    (negotiate (before ++ o :: after)).1 = (negotiate (before ++ after)).1 := calc
  _ = (((negotiate before).1.offer o).1.offerAll after).1 := offerAll_append {} before (o :: after)
  _ = ((negotiate before).1.offerAll after).1 := by rw [offer_spare h]
  _ = _ := (offerAll_append {} before after).symm

theorem exists_firstAt {os : List OptionField} {k : OptionKind} (h : k ∈ (negotiate os).1.order) :
    ∃ i n, FirstAt os k i n := by
  rw [mem_order_iff, ← isSome_choice?, choice?_negotiate] at h
  obtain ⟨c, hc⟩ := Option.isSome_iff_exists.1 h
  obtain ⟨-, i, hi⟩ := asked?_eq_some_iff.1 hc
  exact ⟨i, c.number, hi⟩

theorem pairwise_order (os : List OptionField) :
    (negotiate os).1.order.Pairwise fun k l =>
      ∀ i j m n, FirstAt os k i m → FirstAt os l j n → i < j := by
  -- by the last entry: it is passed over, or its kind comes last
  induction os using List.reverseRecOn with
  | nil => exact List.Pairwise.nil
  | append_singleton os o ih =>
    have hold : ∀ k ∈ (negotiate os).1.order, ∀ i m, FirstAt (os ++ [o]) k i m →
        ∃ n, FirstAt os k i n := by
      intro k hk i m hi
      obtain ⟨j, n, hj⟩ := exists_firstAt hk
      exact ⟨n, hi.place_unique (hj.append [o]) ▸ hj⟩
    have hbefore : (negotiate os).1.order.Pairwise fun k l =>
        ∀ i j m n, FirstAt (os ++ [o]) k i m → FirstAt (os ++ [o]) l j n → i < j := by
      refine ih.imp_of_mem fun {k l} hk hl hkl i j m n hi hj => ?_
      obtain ⟨m', hi⟩ := hold k hk i m hi
      obtain ⟨n', hj⟩ := hold l hl j n hj
      exact hkl i j m' n' hi hj
    have hoffered := (negotiate os).1.offered o
    rw [negotiate_concat]
    generalize ((negotiate os).1.offer o).1 = b at hoffered ⊢
    cases hoffered with
    | skipped => exact hbefore
    | taken c new proposed =>
      have hnew : ∀ p ∈ os, ∀ m, ¬ p.Proposes c.kind m := fun p hp m hpm => by
        simp [has_negotiate_iff.2 ⟨p, hp, m, hpm⟩] at new
      rw [order, List.map_append, List.pairwise_append]
      refine ⟨hbefore, List.pairwise_singleton _ _, fun k hk l hl i j m n hi hj => ?_⟩
      obtain ⟨m', hi⟩ := hold k hk i m hi
      rw [List.mem_singleton.1 hl] at hj
      rw [hj.place_unique (.concat proposed hnew)]
      exact hi.lt_length

end Accepted

structure Negotiated (os : List OptionField) (a : Accepted) : Prop where
  has : ∀ k, a.has k ↔ ∃ o ∈ os, ∃ n, o.Proposes k n
  number : ∀ k n, a.number? k = some n ↔ ∃ i, FirstAt os k i n
  listed : ∀ k, k ∈ a.order ↔ a.has k
  order : a.order.Pairwise fun k l => ∀ i j m n, FirstAt os k i m → FirstAt os l j n → i < j
  /-- An entry that is not the first one for its kind can be left out, and it can be put in. -/
  deleted : ∀ before o after, os = before ++ o :: after → o.Spare before →
    (negotiate (before ++ after)).1 = a
  inserted : ∀ before o after, os = before ++ after → o.Spare before →
    (negotiate (before ++ o :: after)).1 = a

/-- Of any request the first entries for each kind are accepted, and nothing else counts. -/
theorem negotiated_first (os : List OptionField) : Negotiated os (negotiate os).1 where
  has _ := Accepted.has_negotiate_iff
  number k n := by
    rw [Accepted.number?_eq, Accepted.choice?_negotiate, Option.map_eq_some_iff]
    constructor
    · rintro ⟨c, hc, rfl⟩
      exact (asked?_eq_some_iff.1 hc).2
    · rintro ⟨i, hi⟩
      obtain ⟨o, -, hp⟩ := hi.proposes
      obtain ⟨c, hk, rfl⟩ := hp.exists_choice
      exact ⟨c, asked?_eq_some_iff.2 ⟨hk, i, hi⟩, rfl⟩
  listed _ := Accepted.mem_order_iff
  order := Accepted.pairwise_order os
  deleted before o after hos hspare := hos ▸ (Accepted.negotiate_spare hspare after).symm
  inserted before o after hos hspare := hos ▸ Accepted.negotiate_spare hspare after

end Tftp
