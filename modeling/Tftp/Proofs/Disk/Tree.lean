import Mathlib.Tactic.Common
import Tftp.Disk.Tree

namespace Tftp
namespace Disk

namespace Tree

variable {t : Tree} {p q r : Place}

@[simp] theorem node?_nil (t : Tree) : t.node? [] = some .dir := rfl

theorem node?_of_ne_nil (h : p ≠ []) : t.node? p = t.entries.lookup p := by
  cases p with
  | nil => exact absurd rfl h
  | cons n p => rfl

theorem lookup_cons_ite (e : Place × Node) (entries : List (Place × Node)) :
    (e :: entries).lookup r = if r = e.1 then some e.2 else entries.lookup r := by
  rw [List.lookup_cons]
  by_cases h : r = e.1
  · simp [h]
  · rw [beq_false_of_ne h, if_neg h]

theorem lookup_map_node (f : Node → Node) (entries : List (Place × Node)) :
    (entries.map fun e => (e.1, f e.2)).lookup p = (entries.lookup p).map f := by
  induction entries with
  | nil => rfl
  | cons e entries ih =>
    rw [List.map_cons, lookup_cons_ite, lookup_cons_ite, ih]
    split <;> rfl

theorem node?_modify (serial : Nat) (f : Content → Content) :
    (t.modify serial f).node? p = (t.node? p).map (·.modify serial f) := by
  by_cases h : p = []
  · subst h
    rfl
  · rw [node?_of_ne_nil h, node?_of_ne_nil h]
    exact lookup_map_node (·.modify serial f) t.entries

theorem node?_addFile (h : p ≠ []) :
    (t.addFile p).node? r = if r = p then some (.file t.serial #[]) else t.node? r := by
  by_cases hr : r = []
  · subst hr
    rw [if_neg (Ne.symm h), node?_nil, node?_nil]
  · rw [node?_of_ne_nil hr, node?_of_ne_nil hr]
    change ((p, Node.file t.serial #[]) :: t.entries).lookup r = _
    exact lookup_cons_ite _ _

theorem lookup_filter_ne (entries : List (Place × Node)) :
    (entries.filter fun e => decide (e.1 ≠ p)).lookup r =
      if r = p then none else entries.lookup r := by
  induction entries with
  | nil => simp
  | cons e entries ih =>
    rw [lookup_cons_ite]
    by_cases he : e.1 = p
    · rw [List.filter_cons_of_neg (by simpa using he), ih, he]
      split <;> rfl
    · rw [List.filter_cons_of_pos (by simpa using he), lookup_cons_ite, ih]
      by_cases hr : r = e.1
      · simp [hr, he]
      · simp [hr]

theorem node?_erase (h : p ≠ []) :
    (t.erase p).node? r = if r = p then none else t.node? r := by
  by_cases hr : r = []
  · subst hr
    rw [if_neg (Ne.symm h), node?_nil, node?_nil]
  · rw [node?_of_ne_nil hr, node?_of_ne_nil hr]
    exact lookup_filter_ne t.entries

theorem node?_ne_none_of_mem {e : Place × Node} (h : e ∈ t.entries) : t.node? e.1 ≠ none := by
  by_cases he : e.1 = []
  · rw [he]
    nofun
  · rw [node?_of_ne_nil he, Ne, List.lookup_eq_none_iff]
    intro hn
    simpa using hn e h

theorem lookup_map_place (f : Place → Place) {entries : List (Place × Node)}
    (h : ∀ e ∈ entries, f e.1 = if e.1 = p then q else e.1) (hq : ∀ e ∈ entries, e.1 ≠ q) :
    (entries.map fun e => (f e.1, e.2)).lookup r =
      if r = q then entries.lookup p else if r = p then none else entries.lookup r := by
  induction entries with
  | nil => simp
  | cons e entries ih =>
    have he := hq e List.mem_cons_self
    rw [List.map_cons, lookup_cons_ite, lookup_cons_ite, lookup_cons_ite,
      h e List.mem_cons_self, ih (fun e he => h e (List.mem_cons_of_mem _ he))
        fun e he => hq e (List.mem_cons_of_mem _ he)]
    by_cases hp : e.1 = p
    · have hpq : p ≠ q := hp ▸ he
      by_cases hr : r = q
      · simp [hp, hr]
      · by_cases hrp : r = p <;> simp [hp, hr, hrp, hpq]
    · by_cases hr : r = q
      · simp [hp, hr, Ne.symm he, Ne.symm hp]
      · by_cases hrp : r = p
        · simp [hrp, hp, Ne.symm hp]
        · simp [hp, hr, hrp]

theorem node?_move (hp : p ≠ []) (hq : q ≠ []) (hpq : p ≠ q)
    (leaf : ∀ r, p <+: r → t.node? r ≠ none → r = p) :
    (t.move p q).node? r =
      if r = q then t.node? p else if r = p then none else t.node? r := by
  let f : Place → Place := fun r => if p.isPrefixOf r then q ++ r.drop p.length else r
  have hentries : (t.move p q).entries = (t.erase q).entries.map fun e => (f e.1, e.2) := by
    apply List.map_congr_left
    intro e _
    simp only [f]
    split <;> rfl
  by_cases hr : r = []
  · subst hr
    rw [if_neg (Ne.symm hq), if_neg (Ne.symm hp), node?_nil, node?_nil]
  · rw [node?_of_ne_nil hr, hentries, lookup_map_place f (p := p) (q := q)]
    · rw [← node?_of_ne_nil hr, ← node?_of_ne_nil hp, node?_erase hq, node?_erase hq, if_neg hpq]
      split
      · rfl
      · rfl
    · intro e he
      have hm : e ∈ t.entries := (List.mem_filter.1 he).1
      by_cases hpre : p.isPrefixOf e.1
      · have heq := leaf e.1 (List.isPrefixOf_iff_prefix.1 hpre) (node?_ne_none_of_mem hm)
        simp [f, heq]
      · have hne : e.1 ≠ p := fun h => hpre (by simp [h])
        rw [if_neg hne]
        exact if_neg hpre
    · intro e he
      simpa using (List.mem_filter.1 he).2

variable {k m : Nat} {c : Content}

theorem content?_modify (n : Node) (f : Content → Content) :
    (n.modify m f).content? k = (n.content? k).map fun c => if k = m then f c else c := by
  cases n with
  | file j c =>
    by_cases hk : j = k
    · simp [Node.modify, Node.content?, hk]
    · simp [Node.modify, Node.content?, hk]
  | dir | link | device => rfl

/-- A file stands at a place, and no entry before that one is an entry of the same file. -/
structure Owns (t : Tree) (p : Place) (k : Nat) (c : Content) : Prop where
  node : t.node? p = some (.file k c)
  first : ∃ before after, t.entries = before ++ (p, .file k c) :: after ∧
    ∀ e ∈ before, e.2.content? k = none

namespace Owns

theorem content? (h : t.Owns p k c) : t.content? k = some c := by
  obtain ⟨before, after, heq, hbefore⟩ := h.first
  have hnone : before.findSome? (fun e => e.2.content? k) = none :=
    List.findSome?_eq_none_iff.2 hbefore
  have hfirst : t.entries.findSome? (fun e => e.2.content? k) = some c := by
    rw [heq, List.findSome?_append, hnone]
    simp [Node.content?]
  change (t.entries.findSome? fun e => e.2.content? k).or _ = some c
  rw [hfirst]
  rfl

theorem addFile_self (t : Tree) (hp : p ≠ []) : (t.addFile p).Owns p t.serial #[] where
  node := by rw [node?_addFile hp, if_pos rfl]
  first := ⟨[], t.entries, rfl, nofun⟩

theorem addFile (h : t.Owns p k c) (hq : q ≠ []) (hpq : p ≠ q) (hk : k ≠ t.serial) :
    (t.addFile q).Owns p k c where
  node := by rw [node?_addFile hq, if_neg hpq, h.node]
  first := by
    obtain ⟨before, after, heq, hbefore⟩ := h.first
    refine ⟨(q, .file t.serial #[]) :: before, after, ?_, fun e he => ?_⟩
    · change (q, Node.file t.serial #[]) :: t.entries = _
      rw [heq, List.cons_append]
    · rcases List.mem_cons.1 he with rfl | he
      · simp [Node.content?, Ne.symm hk]
      · exact hbefore e he

theorem modify (h : t.Owns p k c) (m : Nat) (f : Content → Content) :
    (t.modify m f).Owns p k (if k = m then f c else c) where
  node := by
    rw [node?_modify, h.node]
    rfl
  first := by
    obtain ⟨before, after, heq, hbefore⟩ := h.first
    refine ⟨before.map fun e => (e.1, e.2.modify m f), after.map fun e => (e.1, e.2.modify m f),
      by simp [Tree.modify, heq, Node.modify], fun e he => ?_⟩
    obtain ⟨d, hd, rfl⟩ := List.mem_map.1 he
    rw [content?_modify, hbefore d hd]
    rfl

theorem erase (h : t.Owns p k c) (hq : q ≠ []) (hpq : p ≠ q) : (t.erase q).Owns p k c where
  node := by rw [node?_erase hq, if_neg hpq, h.node]
  first := by
    obtain ⟨before, after, heq, hbefore⟩ := h.first
    refine ⟨before.filter fun e => e.1 ≠ q, after.filter fun e => e.1 ≠ q,
      by simp [Tree.erase, Tree.keep, heq, hpq], fun e he => ?_⟩
    exact hbefore e (List.mem_filter.1 he).1

theorem move (h : t.Owns p k c) (hr : r ≠ []) (hpr : p ≠ r) (hqp : ¬ q <+: p)
    (hnode : (t.move q r).node? p = t.node? p) : (t.move q r).Owns p k c where
  node := hnode.trans h.node
  first := by
    obtain ⟨before, after, heq, hbefore⟩ := (h.erase hr hpr).first
    let f : Place × Node → Place × Node := fun e =>
      if q.isPrefixOf e.1 then (r ++ e.1.drop q.length, e.2) else e
    refine ⟨before.map f, after.map f, ?_, fun e he => ?_⟩
    · have hf : f (p, .file k c) = (p, .file k c) := by simp [f, hqp]
      change (t.erase r).entries.map f = _
      rw [heq, List.map_append, List.map_cons, hf]
    · obtain ⟨d, hd, rfl⟩ := List.mem_map.1 he
      have hsame : (f d).2 = d.2 := by
        simp only [f]
        split <;> rfl
      rw [hsame]
      exact hbefore d hd

end Owns

end Tree
end Disk
end Tftp
