import Mathlib.Data.List.Induction
import Tftp.Proofs.Disk.Tree
import Tftp.Proofs.Disk.Walk

namespace Tftp
namespace Disk
namespace Tree

structure WellFormed (t : Tree) : Prop where
  parents : ∀ p n, t.node? (p ++ [n]) ≠ none → t.node? p = some .dir
  names : ∀ p n, t.node? (p ++ [n]) ≠ none → 0 ∉ n
  serials : ∀ p k c, t.node? p = some (.file k c) → k < t.serial

/-- Files from a certain serial number on have one name at most. -/
structure Single (base : Nat) (t : Tree) : Prop where
  base_le : base ≤ t.serial
  unique : ∀ p q k c c', base ≤ k → t.node? p = some (.file k c) → t.node? q = some (.file k c') →
    p = q

variable {t t' : Tree} {p q r : Place} {k base : Nat} {c : Content}

namespace WellFormed

theorem up (h : t.WellFormed) (hp : t.node? p = some .dir) : t.node? p.dropLast = some .dir := by
  cases p using List.reverseRecOn with
  | nil => rfl
  | append_singleton q n =>
    rw [List.dropLast_concat]
    exact h.parents q n (by simp [hp])

theorem ancestor (h : t.WellFormed) (hpq : p <+: q) (hne : p ≠ q) (hq : t.node? q ≠ none) :
    t.node? p = some .dir := by
  induction q using List.reverseRecOn with
  | nil => exact absurd (List.prefix_nil.1 hpq) hne
  | append_singleton q n ih =>
    have hd := h.parents q n hq
    rcases List.prefix_concat_iff.1 hpq with heq | hpq
    · exact absurd heq hne
    · by_cases heq : p = q
      · rwa [heq]
      · exact ih hpq heq (by simp [hd])

theorem leaf (h : t.WellFormed) (hp : t.node? p = some (.file k c)) (r : Place) (hpr : p <+: r)
    (hr : t.node? r ≠ none) : r = p := by
  by_contra hne
  cases hp.symm.trans (h.ancestor hpr (Ne.symm hne) hr)

theorem names_of (h : t.WellFormed) (hp : t.node? p ≠ none) : ∀ n ∈ p, 0 ∉ n := by
  induction p using List.reverseRecOn with
  | nil => nofun
  | append_singleton p n ih =>
    intro m hm
    rcases List.mem_append.1 hm with hm | hm
    · exact ih (by simp [h.parents p n hp]) m hm
    · rw [List.mem_singleton.1 hm]
      exact h.names p n hp

theorem single (h : t.WellFormed) : t.Single t.serial where
  base_le := Nat.le_refl _
  unique p _ k c _ hk hp _ := absurd (h.serials p k c hp) (Nat.not_lt_of_le hk)

theorem of_steady (h : t.WellFormed) (s : Steady t t')
    (added : ∀ p n, t'.node? (p ++ [n]) ≠ none →
      t.node? (p ++ [n]) ≠ none ∨ t.node? p = some .dir ∧ 0 ∉ n)
    (serials : ∀ p k c, t'.node? p = some (.file k c) → k < t'.serial) : t'.WellFormed where
  parents p n hn := by
    rcases added p n hn with hn | hn
    · exact (s.dirs p).2 (h.parents p n hn)
    · exact (s.dirs p).2 hn.1
  names p n hn := by
    rcases added p n hn with hn | hn
    · exact h.names p n hn
    · exact hn.2
  serials := serials

end WellFormed

structure Next (t t' : Tree) : Prop where
  wellFormed : t'.WellFormed
  steady : Steady t t'
  serial : t.serial ≤ t'.serial

theorem Next.trans {t'' : Tree} (h : t.Next t') (h' : t'.Next t'') : t.Next t'' :=
  ⟨h'.wellFormed, h.steady.trans h'.steady, Nat.le_trans h.serial h'.serial⟩

theorem node?_modify_eq_iff {n : Node} (h : ∀ k c, n ≠ .file k c) (f : Content → Content) :
    (t.modify k f).node? p = some n ↔ t.node? p = some n := by
  rw [node?_modify]
  cases t.node? p with
  | none => simp
  | some m =>
    cases m with
    | file j c => simp [Node.modify, Ne.symm (h _ _)]
    | dir => simp [Node.modify]
    | link target => simp [Node.modify]
    | device d => simp [Node.modify]

theorem node?_modify_file {j : Nat} {f : Content → Content}
    (h : (t.modify k f).node? p = some (.file j c)) : ∃ c', t.node? p = some (.file j c') := by
  rw [node?_modify] at h
  cases hn : t.node? p with
  | none => simp [hn] at h
  | some m =>
    cases m with
    | file i c' =>
      simp only [hn, Option.map_some, Node.modify, Option.some.injEq, Node.file.injEq] at h
      exact ⟨c', by rw [h.1]⟩
    | dir => simp [hn, Node.modify] at h
    | link target => simp [hn, Node.modify] at h
    | device d => simp [hn, Node.modify] at h

theorem steady_modify (t : Tree) (k : Nat) (f : Content → Content) : Steady t (t.modify k f) where
  dirs p := node?_modify_eq_iff (by nofun) f
  old p target := (node?_modify_eq_iff (by nofun) f).1
  live p target hl := .inl ((node?_modify_eq_iff (by nofun) f).2 hl)
  cwd := rfl

theorem WellFormed.modify (h : t.WellFormed) (k : Nat) (f : Content → Content) :
    (t.modify k f).WellFormed := by
  apply h.of_steady (steady_modify t k f)
  · intro p n hn
    refine .inl fun hnone => hn ?_
    rw [node?_modify, hnone]
    rfl
  · intro p j c hp
    obtain ⟨c', hp⟩ := node?_modify_file hp
    exact h.serials p j c' hp

theorem Single.modify (h : t.Single base) (k : Nat) (f : Content → Content) :
    (t.modify k f).Single base where
  base_le := h.base_le
  unique p q j c c' hj hp hq := by
    obtain ⟨d, hp⟩ := node?_modify_file hp
    obtain ⟨d', hq⟩ := node?_modify_file hq
    exact h.unique p q j d d' hj hp hq

theorem steady_addFile (hp : p ≠ []) (hn : t.node? p = none) : Steady t (t.addFile p) where
  dirs r := by
    rw [node?_addFile hp]
    split
    · rename_i hr
      simp [hr, hn]
    · rfl
  old r target h := by
    rw [node?_addFile hp] at h
    split at h
    · cases h
    · exact h
  live r target h := by
    rw [node?_addFile hp, if_neg]
    · exact .inl h
    · rintro rfl
      simp [hn] at h
  cwd := rfl

theorem WellFormed.addFile (h : t.WellFormed) {y : Name} (hd : t.node? p = some .dir)
    (hn : t.node? (p ++ [y]) = none) (hy : 0 ∉ y) : (t.addFile (p ++ [y])).WellFormed := by
  have hne : p ++ [y] ≠ [] := by simp
  have hserial : (t.addFile (p ++ [y])).serial = t.serial + 1 := rfl
  apply h.of_steady (steady_addFile hne hn)
  · intro q n hq
    rw [node?_addFile hne] at hq
    split at hq
    · rename_i heq
      obtain ⟨rfl, hny⟩ := List.append_inj' heq rfl
      cases hny
      exact .inr ⟨hd, hy⟩
    · exact .inl hq
  · intro q k c hq
    rw [node?_addFile hne] at hq
    rw [hserial]
    split at hq
    · cases hq
      exact Nat.lt_succ_self _
    · exact Nat.lt_succ_of_lt (h.serials q k c hq)

theorem Single.addFile (h : t.Single base) (wf : t.WellFormed) (hp : p ≠ []) :
    (t.addFile p).Single base where
  base_le := Nat.le_succ_of_le h.base_le
  unique q r k c c' hk hq hr := by
    rw [node?_addFile hp] at hq hr
    split at hq <;> split at hr
    · simp_all
    · cases hq
      exact absurd (wf.serials r _ c' hr) (Nat.lt_irrefl _)
    · cases hr
      exact absurd (wf.serials q _ c hq) (Nat.lt_irrefl _)
    · exact h.unique q r k c c' hk hq hr

theorem steady_erase (h : t.node? p = some (.file k c)) : Steady t (t.erase p) := by
  have hp : p ≠ [] := by
    rintro rfl
    cases h
  exact {
    dirs := fun r => by
      rw [node?_erase hp]
      split
      · rename_i hr
        simp [hr, h]
      · rfl
    old := fun r target hl => by
      rw [node?_erase hp] at hl
      split at hl
      · cases hl
      · exact hl
    live := fun r target hl => by
      rw [node?_erase hp, if_neg]
      · exact .inl hl
      · rintro rfl
        cases h.symm.trans hl
    cwd := rfl }

theorem node?_of_erase {n : Node} (hp : p ≠ []) (h : (t.erase p).node? r = some n) :
    t.node? r = some n := by
  rw [node?_erase hp] at h
  split at h
  · cases h
  · exact h

theorem WellFormed.erase (h : t.WellFormed) (hp : t.node? p = some (.file k c)) :
    (t.erase p).WellFormed := by
  have hne : p ≠ [] := by
    rintro rfl
    cases hp
  apply h.of_steady (steady_erase hp)
  · intro q n hq
    obtain ⟨m, hm⟩ := Option.ne_none_iff_exists'.1 hq
    exact .inl (by simp [node?_of_erase hne hm])
  · intro q j c hq
    exact h.serials q j c (node?_of_erase hne hq)

theorem Single.erase (h : t.Single base) (hp : p ≠ []) : (t.erase p).Single base where
  base_le := h.base_le
  unique q r j c c' hj hq hr :=
    h.unique q r j c c' hj (node?_of_erase hp hq) (node?_of_erase hp hr)

section

variable (h : t.WellFormed) (hp : t.node? p = some (.file k c)) (hq : t.node? q ≠ some .dir)
  (hpq : p ≠ q)

include h hp hq hpq

theorem WellFormed.node?_move : (t.move p q).node? r =
    if r = q then t.node? p else if r = p then none else t.node? r := by
  refine Tree.node?_move ?_ ?_ hpq (h.leaf hp)
  · rintro rfl
    cases hp
  · rintro rfl
    exact hq rfl

theorem WellFormed.steady_move (dead : t.Dead q) : Steady t (t.move p q) where
  dirs r := by
    rw [h.node?_move hp hq hpq]
    split
    · rename_i hr
      simp [hr, hp, hq]
    · split
      · rename_i hr
        simp [hr, hp]
      · rfl
  old r target hl := by
    rw [h.node?_move hp hq hpq] at hl
    split at hl
    · cases hp.symm.trans hl
    · split at hl
      · cases hl
      · exact hl
  live r target hl := by
    rw [h.node?_move hp hq hpq]
    by_cases hr : r = q
    · exact .inr (hr ▸ dead)
    · rw [if_neg hr, if_neg]
      · exact .inl hl
      · rintro rfl
        cases hp.symm.trans hl
  cwd := rfl

end

theorem WellFormed.file_of_move (h : t.WellFormed) (hp : t.node? p = some (.file k c))
    (hq : t.node? q ≠ some .dir) (hpq : p ≠ q) {j : Nat} {d : Content}
    (hr : (t.move p q).node? r = some (.file j d)) :
    r = q ∧ t.node? p = some (.file j d) ∨ r ≠ q ∧ r ≠ p ∧ t.node? r = some (.file j d) := by
  rw [h.node?_move hp hq hpq] at hr
  split at hr
  · exact .inl ⟨‹_›, hr⟩
  · split at hr
    · cases hr
    · exact .inr ⟨‹_›, ‹_›, hr⟩

theorem WellFormed.move (h : t.WellFormed) (hp : t.node? p = some (.file k c)) {x : Name}
    (hd : t.node? q = some .dir) (hx : 0 ∉ x) (hq : t.node? (q ++ [x]) ≠ some .dir)
    (hpq : p ≠ q ++ [x]) (dead : t.Dead (q ++ [x])) : (t.move p (q ++ [x])).WellFormed := by
  have hserial : (t.move p (q ++ [x])).serial = t.serial := rfl
  apply h.of_steady (h.steady_move hp hq hpq dead)
  · intro r n hr
    rw [h.node?_move hp hq hpq] at hr
    split at hr
    · rename_i heq
      obtain ⟨rfl, hn⟩ := List.append_inj' heq rfl
      cases hn
      exact .inr ⟨hd, hx⟩
    · split at hr
      · exact absurd rfl hr
      · exact .inl hr
  · intro r j d hr
    rw [hserial]
    rcases h.file_of_move hp hq hpq hr with ⟨_, hr⟩ | ⟨_, _, hr⟩
    · exact h.serials p j d hr
    · exact h.serials r j d hr

theorem Single.move (h : t.Single base) (wf : t.WellFormed) (hp : t.node? p = some (.file k c))
    (hq : t.node? q ≠ some .dir) (hpq : p ≠ q) : (t.move p q).Single base where
  base_le := h.base_le
  unique r s j d d' hj hr hs := by
    rcases wf.file_of_move hp hq hpq hr with ⟨rfl, hr'⟩ | ⟨_, hrp, hr'⟩ <;>
      rcases wf.file_of_move hp hq hpq hs with ⟨rfl, hs'⟩ | ⟨_, hsp, hs'⟩
    · rfl
    · exact absurd (h.unique p s j d d' hj hr' hs').symm hsp
    · exact absurd (h.unique r p j d d' hj hr' hs') hrp
    · exact h.unique r s j d d' hj hr' hs'

end Tree
end Disk
end Tftp
