import Tftp.Proofs.Disk.WellFormed

namespace Tftp
namespace Disk

structure Legible (n : Name) : Prop where
  proper : Proper n
  flat : slash ∉ n
  plain : 0 ∉ n

namespace Tree

structure Lawful (t : Tree) : Prop extends WellFormed t where
  legible : ∀ p n, t.node? (p ++ [n]) ≠ none → Legible n
  shared : ∀ p k c, t.node? p = some (.file k c) → t.content? k = some c

variable {t : Tree} {p : Place}

theorem Lawful.legible_of (h : t.Lawful) (hp : t.node? p ≠ none) : ∀ n ∈ p, Legible n := by
  induction p using List.reverseRecOn with
  | nil => nofun
  | append_singleton p n ih =>
    intro m hm
    rcases List.mem_append.1 hm with hm | hm
    · exact ih (by simp [h.parents p n hp]) m hm
    · rw [List.mem_singleton.1 hm]
      exact h.legible p n hp

def orderly (t : Tree) : Place × Node → Bool
  | (p, node) =>
    match p.getLast? with
    | none => false
    | some n =>
      t.node? p.dropLast = some .dir && n ≠ [] && n ≠ here && n ≠ above && !n.contains slash &&
        !n.contains 0 &&
          match node with
          | .file k c => k < t.serial && t.content? k = some c
          | _ => true

theorem lawful_of_orderly (h : t.entries.all t.orderly) : t.Lawful := by
  have hentry : ∀ p n node, t.node? (p ++ [n]) = some node → t.orderly (p ++ [n], node) := by
    intro p n node hn
    rw [node?_of_ne_nil (by simp), List.lookup_eq_some_iff] at hn
    obtain ⟨before, after, heq, _⟩ := hn
    exact List.all_eq_true.1 h _ (by simp [heq])
  have hsome : ∀ p n, t.node? (p ++ [n]) ≠ none →
      t.node? p = some .dir ∧ n ≠ [] ∧ n ≠ here ∧ n ≠ above ∧ slash ∉ n ∧ 0 ∉ n := by
    intro p n hn
    obtain ⟨node, hn⟩ := Option.ne_none_iff_exists'.1 hn
    have ho := hentry p n node hn
    simp only [orderly, List.getLast?_concat, List.dropLast_concat, Bool.and_eq_true,
      decide_eq_true_eq, Bool.not_eq_true', List.contains_eq_mem, decide_eq_false_iff_not] at ho
    exact ⟨ho.1.1.1.1.1.1, ho.1.1.1.1.1.2, ho.1.1.1.1.2, ho.1.1.1.2, ho.1.1.2, ho.1.2⟩
  have hfile : ∀ p k c, t.node? p = some (.file k c) → k < t.serial ∧ t.content? k = some c := by
    intro p k c hp
    cases p using List.reverseRecOn with
    | nil => cases hp
    | append_singleton p n =>
      have ho := hentry p n _ hp
      simp only [orderly, List.getLast?_concat, Bool.and_eq_true, decide_eq_true_eq] at ho
      exact ho.2
  exact {
    parents := fun p n hn => (hsome p n hn).1
    names := fun p n hn => (hsome p n hn).2.2.2.2.2
    serials := fun p k c hp => (hfile p k c hp).1
    legible := fun p n hn =>
      have h := hsome p n hn
      ⟨⟨h.2.1, h.2.2.1, h.2.2.2.1⟩, h.2.2.2.2.1, h.2.2.2.2.2⟩
    shared := fun p k c hp => (hfile p k c hp).2 }

end Tree
end Disk
end Tftp
