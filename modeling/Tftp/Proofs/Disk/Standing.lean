import Tftp.Proofs.Disk.Uploads

namespace Tftp
namespace Disk

/-- A file that has lost its name for good. Only one that was there before all uploads may have
other names. -/
structure Tree.Gone (base : Nat) (t : Tree) (p : Place) (k : Nat) : Prop where
  old : k < t.serial
  here : ∀ c, t.node? p ≠ some (.file k c)
  made : base ≤ k → ∀ q c, t.node? q ≠ some (.file k c)

/-- A tree in which every upload aims at the place it aimed at in another one, and every file that
can be seen is still there. -/
structure Tree.Keeps (base : Nat) (tags : Nat → Bytes) (t t' : Tree) : Prop where
  aims {u : Upload} {p : Place} : u.Aims t p → u.Aims t' p
  stays {p : Place} {k : Nat} {c : Content} : Visible tags p → t.node? p = some (.file k c) →
    t'.node? p = some (.file k c)
  gone {p : Place} {k : Nat} : t.Gone base p k → t'.Gone base p k

theorem Tree.Keeps.refl (base : Nat) (tags : Nat → Bytes) (t : Tree) : Keeps base tags t t where
  aims h := h
  stays _ h := h
  gone h := h

theorem Tree.Keeps.trans {base : Nat} {tags : Nat → Bytes} {t t' t'' : Tree}
    (h : Keeps base tags t t') (h' : Keeps base tags t' t'') : Keeps base tags t t'' where
  aims ha := h'.aims (h.aims ha)
  stays hv hk := h'.stays hv (h.stays hv hk)
  gone hg := h'.gone (h.gone hg)

def Handle.Contests (h : Handle) (t : Tree) (p : Place) : Prop :=
  ∃ u, h = .upload u ∧ u.committed = false ∧ u.Aims t p

variable {s s' : Served} {t t' : Tree} {u : Upload} {us : List Upload} {p : Place} {k base : Nat}
  {c : Content}

theorem Pending.visible (h : Pending base s u) (hv : Visible s.tags p) :
    p.getLast? ≠ u.hidden? := by
  obtain ⟨x, i, _, hx⟩ := h.staged
  rw [hx]
  exact hv x i

namespace Change

variable {taken : Option Place} (wf : s.tree.WellFormed) (h : Change base u s.tree taken t')

include wf h

theorem stays (hu : Pending base s u) (hv : Visible s.tags p) (ht : taken ≠ some p)
    (hk : s.tree.node? p = some (.file k c)) : t'.node? p = some (.file k c) := by
  cases h with
  | same => exact hk
  | @wrote j f sink =>
    have hj : k ≠ j := by
      rintro rfl
      exact hu.visible hv ((hu.own k sink).2 p c hk)
    rw [Tree.node?_modify, hk]
    simp [Node.modify, hj]
  | @removed q _ _ last file =>
    have hq : q ≠ [] := by
      rintro rfl
      cases file
    rw [Tree.node?_erase hq, if_neg, hk]
    rintro rfl
    exact hu.visible hv last
  | renamed _ last _ file _ apart free =>
    rw [wf.node?_move file free apart, if_neg, if_neg, hk]
    · rintro rfl
      exact hu.visible hv last
    · rintro rfl
      exact ht rfl

theorem old_file {q : Place} {d : Content} (hq : t'.node? q = some (.file k d)) :
    ∃ r d', s.tree.node? r = some (.file k d') := by
  cases h with
  | same => exact ⟨q, d, hq⟩
  | wrote f _ =>
    obtain ⟨d', hq⟩ := Tree.node?_modify_file hq
    exact ⟨q, d', hq⟩
  | @removed r _ _ _ file =>
    refine ⟨q, d, Tree.node?_of_erase ?_ hq⟩
    rintro rfl
    cases file
  | renamed _ _ _ file _ apart free =>
    rw [wf.node?_move file free apart] at hq
    split at hq
    · exact ⟨_, d, hq⟩
    · split at hq
      · cases hq
      · exact ⟨q, d, hq⟩

theorem gone (hg : s.tree.Gone base p k) : t'.Gone base p k where
  old := h.serial ▸ hg.old
  here d hd := by
    cases h with
    | same => exact hg.here d hd
    | wrote f _ =>
      obtain ⟨d', hd⟩ := Tree.node?_modify_file hd
      exact hg.here d' hd
    | @removed r _ _ _ file =>
      refine hg.here d (Tree.node?_of_erase ?_ hd)
      rintro rfl
      cases file
    | renamed _ _ made file _ apart free =>
      rcases wf.file_of_move file free apart hd with ⟨_, hr⟩ | ⟨_, _, hr⟩
      · cases file.symm.trans hr
        exact hg.made made _ _ hr
      · exact hg.here d hr
  made hk q d hq := by
    obtain ⟨r, d', hr⟩ := h.old_file wf hq
    exact hg.made hk r d' hr

theorem gone_of_taken (hs : s.tree.Single base) (ht : taken = some p)
    (hk : s.tree.node? p = some (.file k c)) :
    t'.Gone base p k ∧ ∃ j d, t'.node? p = some (.file j d) := by
  have serial := h.serial
  cases h with
  | same => cases ht
  | wrote => cases ht
  | removed => cases ht
  | @renamed r _ j d _ _ made file _ apart free =>
    cases ht
    have hp := wf.node?_move (r := p) file free apart
    rw [if_pos rfl, file] at hp
    have hjk : j ≠ k := by
      rintro rfl
      exact apart (hs.unique r p j d c made file hk)
    refine ⟨⟨serial ▸ wf.serials p k c hk, fun d hd => ?_, fun hb q d hq => ?_⟩, j, d, hp⟩
    · cases hp.symm.trans hd
      exact hjk rfl
    · rcases wf.file_of_move file free apart hq with ⟨_, hr⟩ | ⟨hne, _, hr⟩
      · cases file.symm.trans hr
        exact hjk rfl
      · exact hne (hs.unique q p k d c hb hr hk)

end Change

theorem Change.keeps (wf : s.tree.WellFormed) (hu : Pending base s u)
    (h : Change base u s.tree none t') : Tree.Keeps base s.tags s.tree t' where
  aims ha := ha.steady (h.steady wf hu)
  stays hv hk := h.stays wf hu hv nofun hk
  gone hg := h.gone wf hg

namespace Served.Act

variable {done : Bool} {file file' : Handle} (g : Guarded base (file.upload?.toList ++ us) s)
  (a : s.Act done file file' s')

include g a

theorem aims {v : Upload} (ha : v.Aims s.tree p) : v.Aims s'.tree p := ha.steady (g.steady a)

theorem gone (hg : s.tree.Gone base p k) : s'.tree.Gone base p k := by
  cases a with
  | reader => exact hg
  | upload _ _ _ wrote => exact wrote.change.gone g.wellFormed hg
  | commit follows _ _ closed wrote renamed =>
    have ht := wrote.change.gone g.wellFormed hg
    obtain ⟨hw, q, _, c | ⟨_, rfl⟩⟩ := g.commit follows closed wrote renamed
    · exact c.gone hw.wellFormed ht
    · exact ht

theorem stays_or_gone (hv : Visible s.tags p) (hk : s.tree.node? p = some (.file k c)) :
    s'.tree.node? p = some (.file k c) ∧ (done = true → ¬ file.Contests s.tree p) ∨
      (s'.tree.Gone base p k ∧ ∃ j d, s'.tree.node? p = some (.file j d)) ∧ done = true ∧
        file.Contests s.tree p := by
  cases a with
  | reader => exact .inl ⟨hk, fun _ ⟨_, hu, _⟩ => nomatch hu⟩
  | upload _ _ late wrote =>
    refine .inl ⟨wrote.change.stays g.wellFormed (g.pending _ List.mem_cons_self) hv nofun hk, ?_⟩
    rintro hd ⟨v, hv, early, _⟩
    cases hv
    cases early.symm.trans (late hd)
  | @commit u u' t t' follows early _ closed wrote renamed =>
    have ht : t.node? p = some (.file k c) :=
      wrote.change.stays g.wellFormed (g.pending u List.mem_cons_self) hv nofun hk
    obtain ⟨hw, q, ha, hc⟩ := g.commit follows closed wrote renamed
    have hu' := hw.pending u' List.mem_cons_self
    by_cases hqp : q = p
    · subst hqp
      rcases hc with taken | ⟨last, _⟩
      · exact .inr ⟨taken.gone_of_taken hw.wellFormed hw.single rfl ht, rfl, u, rfl, early, ha⟩
      · exact absurd last (hu'.visible hv)
    · refine .inl ⟨?_, ?_⟩
      · rcases hc with taken | ⟨_, rfl⟩
        · exact taken.stays hw.wellFormed hu' hv (by simpa using hqp) ht
        · exact ht
      · rintro _ ⟨v, hv, _, hp⟩
        cases hv
        exact hqp (ha.unique hp)

end Served.Act

theorem Guarded.release_keeps {file : Handle} (g : Guarded base (file.upload?.toList ++ us) s) :
    Tree.Keeps base s.tags s.tree (s.release file).2.tree := by
  cases file with
  | reader => exact .refl _ _ _
  | upload u =>
    obtain ⟨t, t', c, hw, c', hs⟩ := g.release_cases
    rw [hs]
    exact (c.keeps g.wellFormed (g.pending u List.mem_cons_self)).trans
      (c'.keeps hw.wellFormed (hw.pending u List.mem_cons_self))

theorem Tree.keeps_addFile {q : Place} (base : Nat) (tags : Nat → Bytes) (hq : q ≠ [])
    (hn : t.node? q = none) : Keeps base tags t (t.addFile q) where
  aims ha := ha.steady (steady_addFile hq hn)
  stays _ hk := by
    rw [node?_addFile hq, if_neg, hk]
    rintro rfl
    cases hn.symm.trans hk
  gone {r k} hg := by
    have hnew : ∀ q' d, (t.addFile q).node? q' = some (.file k d) →
        t.node? q' = some (.file k d) := by
      intro q' d hd
      rw [node?_addFile hq] at hd
      split at hd
      · cases hd
        exact absurd hg.old (Nat.lt_irrefl _)
      · exact hd
    exact {
      old := Nat.lt_succ_of_lt hg.old
      here := fun d hd => hg.here d (hnew r d hd)
      made := fun hk q' d hd => hg.made hk q' d (hnew q' d hd) }

end Disk
end Tftp
