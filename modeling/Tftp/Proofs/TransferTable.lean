import Mathlib.Data.List.Nodup
import Tftp.TransferTable

namespace Tftp
namespace TransferTable

variable {η : Type} {t t' : TransferTable η} {e f : Endpoint} {x y : Transfer η}

def endpoints (t : TransferTable η) : List Endpoint := t.entries.map (·.1)

theorem size_endpoints (t : TransferTable η) : t.endpoints.length = t.size := by
  simp [endpoints, size]

theorem mem_of_find? (h : t.find? e = some x) : (e, x) ∈ t.entries := by
  obtain ⟨before, after, heq, _⟩ := List.lookup_eq_some_iff.1 h
  rw [heq]
  exact List.mem_append_right _ List.mem_cons_self

theorem find?_isSome_iff : (t.find? e).isSome ↔ e ∈ t.endpoints := by
  simp [find?, endpoints]

theorem find?_eq_none_iff : t.find? e = none ↔ e ∉ t.endpoints := by
  rw [← find?_isSome_iff, Option.not_isSome_iff_eq_none]

@[simp] theorem endpoints_erase (t : TransferTable η) (e : Endpoint) :
    (t.erase e).endpoints = t.endpoints.filter (· ≠ e) := by
  simp only [endpoints, erase, List.filter_map]
  rfl

@[simp] theorem endpoints_replace (t : TransferTable η) (e : Endpoint) (x : Transfer η) :
    (t.replace e x).endpoints = t.endpoints := by
  simp only [endpoints, replace, List.map_map]
  apply List.map_congr_left
  intro f _
  simp only [Function.comp_apply]
  split <;> rfl

@[simp] theorem capacity_erase (t : TransferTable η) (e : Endpoint) :
    (t.erase e).capacity = t.capacity := rfl

@[simp] theorem capacity_replace (t : TransferTable η) (e : Endpoint) (x : Transfer η) :
    (t.replace e x).capacity = t.capacity := rfl

theorem find?_replace_of_ne (h : f ≠ e) (t : TransferTable η) (y : Transfer η) :
    (t.replace e y).find? f = t.find? f := by
  change (t.entries.map fun g => if g.1 = e then (g.1, y) else g).lookup f = t.entries.lookup f
  induction t.entries with
  | nil => rfl
  | cons g entries ih =>
    rw [List.map_cons]
    split
    · rename_i hg
      have hne : (f == g.1) = false := by simpa [hg] using h
      rw [List.lookup_cons, List.lookup_cons, hne]
      exact ih
    · rw [List.lookup_cons, List.lookup_cons, ih]

theorem find?_replace (h : t.find? e = some x) (y : Transfer η) :
    (t.replace e y).find? e = some y := by
  obtain ⟨before, after, heq, hb⟩ := List.lookup_eq_some_iff.1 h
  change (t.entries.map fun g => if g.1 = e then (g.1, y) else g).lookup e = some y
  rw [heq, List.map_append, List.map_cons, if_pos rfl]
  refine List.lookup_eq_some_iff.2 ⟨_, _, rfl, fun f hf => ?_⟩
  obtain ⟨g, hg, rfl⟩ := List.mem_map.1 hf
  have hne := hb g hg
  split <;> exact hne

theorem find?_erase_of_ne (h : f ≠ e) (t : TransferTable η) :
    (t.erase e).find? f = t.find? f := by
  change (t.entries.filter fun g => g.1 ≠ e).lookup f = t.entries.lookup f
  induction t.entries with
  | nil => rfl
  | cons g entries ih =>
    rw [List.filter_cons]
    split
    · rw [List.lookup_cons, List.lookup_cons, ih]
    · rename_i hg
      have hne : (f == g.1) = false := by
        have hg : g.1 = e := by simpa using hg
        simpa [hg] using h
      rw [List.lookup_cons, hne]
      exact ih

theorem entries_split (hn : t.endpoints.Nodup) (h : t.find? e = some x) :
    ∃ before after, t.entries = before ++ (e, x) :: after ∧
      (∀ f ∈ before, f.1 ≠ e) ∧ ∀ f ∈ after, f.1 ≠ e := by
  obtain ⟨before, after, heq, hb⟩ := List.lookup_eq_some_iff.1 h
  refine ⟨before, after, heq, fun f hf hfe => by simpa [hfe] using hb f hf, ?_⟩
  intro f hf hfe
  rw [endpoints, heq, List.map_append, List.map_cons] at hn
  have hc := (List.nodup_cons.1 (List.nodup_append.1 hn).2.1).1
  exact hc (List.mem_map.2 ⟨f, hf, hfe⟩)

theorem entries_erase {before after : List (Endpoint × Transfer η)}
    (heq : t.entries = before ++ (e, x) :: after) (hb : ∀ f ∈ before, f.1 ≠ e)
    (ha : ∀ f ∈ after, f.1 ≠ e) : (t.erase e).entries = before ++ after := by
  have keep : ∀ l : List (Endpoint × Transfer η), (∀ f ∈ l, f.1 ≠ e) →
      l.filter (fun f => decide (f.1 ≠ e)) = l := fun l hl =>
    List.filter_eq_self.2 fun f hf => by simpa using hl f hf
  change t.entries.filter (fun f => decide (f.1 ≠ e)) = _
  rw [heq, List.filter_append, List.filter_cons, keep before hb, keep after ha]
  simp

theorem entries_perm (hn : t.endpoints.Nodup) (h : t.find? e = some x) :
    t.entries.Perm ((e, x) :: (t.erase e).entries) := by
  obtain ⟨before, after, heq, hb, ha⟩ := entries_split hn h
  rw [entries_erase heq hb ha, heq]
  exact List.perm_middle

theorem replace_perm (hn : t.endpoints.Nodup) (h : t.find? e = some x) (y : Transfer η) :
    (t.replace e y).entries.Perm ((e, y) :: (t.erase e).entries) := by
  obtain ⟨before, after, heq, hb, ha⟩ := entries_split hn h
  have keep : ∀ l : List (Endpoint × Transfer η), (∀ f ∈ l, f.1 ≠ e) →
      l.map (fun f => if f.1 = e then (f.1, y) else f) = l := fun l hl =>
    (List.map_congr_left fun f hf => if_neg (hl f hf)).trans (List.map_id _)
  rw [entries_erase heq hb ha]
  change (t.entries.map fun f => if f.1 = e then (f.1, y) else f).Perm _
  rw [heq, List.map_append, List.map_cons, keep before hb, keep after ha, if_pos rfl]
  exact List.perm_middle

@[simp] theorem erase_replace (t : TransferTable η) (e : Endpoint) (y : Transfer η) :
    (t.replace e y).erase e = t.erase e := by
  unfold erase replace
  congr 1
  rw [List.filter_map]
  have hkeep : ∀ f ∈ t.entries.filter (fun f => decide (f.1 ≠ e)),
      (fun f : Endpoint × Transfer η => if f.1 = e then (f.1, y) else f) f = f := fun f hf =>
    if_neg (by simpa using (List.mem_filter.1 hf).2)
  have hsame : (fun f : Endpoint × Transfer η => decide (f.1 ≠ e)) ∘
      (fun f => if f.1 = e then (f.1, y) else f) = fun f => decide (f.1 ≠ e) := by
    funext f
    simp only [Function.comp_apply]
    split <;> rfl
  exact (congrArg _ (congrFun (congrArg _ hsame) _)).trans
    ((List.map_congr_left hkeep).trans (List.map_id _))

theorem insert?_eq_some_iff : t.insert? x = some t' ↔ t.size < t.capacity ∧ x.peer ∉ t.endpoints ∧
    t' = { t with entries := t.entries ++ [(x.peer, x)], slots := t.slots.insert x.peer } := by
  rw [← find?_eq_none_iff, insert?, full]
  split
  · rename_i h
    simp only [Bool.or_eq_true, decide_eq_true_eq] at h
    constructor
    · intro h
      cases h
    · rintro ⟨hs, hf, _⟩
      rcases h with h | h
      · omega
      · simp [hf] at h
  · rename_i h
    simp only [Bool.or_eq_true, decide_eq_true_eq, not_or, Bool.not_eq_true,
      Option.isSome_eq_false_iff, Option.isNone_iff_eq_none] at h
    simp only [Option.some.injEq]
    exact ⟨fun he => ⟨Nat.lt_of_not_le h.1, h.2, he.symm⟩, fun he => he.2.2.symm⟩

theorem find?_insert? (h : t.insert? x = some t') (hf : f ≠ x.peer) :
    t'.find? f = t.find? f := by
  obtain ⟨-, -, rfl⟩ := insert?_eq_some_iff.1 h
  have hne : (f == x.peer) = false := by simpa using hf
  have hnone : [(x.peer, x)].lookup f = none := by rw [List.lookup_cons, hne]; rfl
  rw [find?, List.lookup_append, hnone, Option.or_none, find?]

theorem find?_insert?_self (h : t.insert? x = some t') : t'.find? x.peer = some x := by
  obtain ⟨-, hnew, rfl⟩ := insert?_eq_some_iff.1 h
  have hnone : t.entries.lookup x.peer = none := find?_eq_none_iff.2 hnew
  rw [find?, List.lookup_append, hnone, Option.none_or, List.lookup_cons_self]

theorem erase_comm (t : TransferTable η) (e f : Endpoint) :
    (t.erase e).erase f = (t.erase f).erase e := by
  simp only [erase, Slots.erase, List.filter_filter, mk.injEq, true_and]
  refine ⟨List.filter_congr fun g _ => Bool.and_comm _ _, ?_⟩
  congr 1
  exact List.filter_congr fun g _ => Bool.and_comm _ _

theorem erase_replace_comm (t : TransferTable η) (e f : Endpoint) (y : Transfer η) :
    (t.replace e y).erase f = (t.erase f).replace e y := by
  simp only [erase, replace, List.filter_map, mk.injEq, true_and, and_true]
  congr 1
  refine List.filter_congr fun g _ => ?_
  simp only [Function.comp_apply]
  split <;> rfl

theorem entries_erase_of_find?_eq_none (h : t.find? e = none) :
    (t.erase e).entries = t.entries := by
  rw [find?_eq_none_iff] at h
  refine List.filter_eq_self.2 fun f hf => ?_
  simpa using ne_of_mem_of_not_mem (List.mem_map_of_mem hf) h

theorem entries_erase_insert? (h : t.insert? x = some t') (hf : f ≠ x.peer) :
    (t'.erase f).entries = (t.erase f).entries ++ [(x.peer, x)] := by
  obtain ⟨-, -, rfl⟩ := insert?_eq_some_iff.1 h
  simp [erase, List.filter_append, Ne.symm hf]

end TransferTable
end Tftp
