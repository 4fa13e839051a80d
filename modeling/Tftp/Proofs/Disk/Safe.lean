import Tftp.Proofs.Disk.Ledger

namespace Tftp
namespace Disk

structure Safe (base : Nat) (tags : Nat → Bytes) (watched : List Watched)
    (files : List (Numbered Handle)) (r : Recorded Served) : Prop where
  tags : r.store.tags = tags
  keeps : r.store.overwrite = false
  guarded : Guarded base (uploads files) r.store
  ledger : Ledger files r
  stands : ∀ w ∈ watched, w.Stands base files r

variable {watched : List Watched} {files rest : List (Numbered Handle)} {r : Recorded Served}
  {s : Served} {us : List Upload} {file file' : Handle} {n base : Nat} {tags : Nat → Bytes}
  {done : Bool} {call : Call}

namespace Safe

theorem act (h : Safe base tags watched (⟨file, n⟩ :: rest) r) (a : r.store.Act done file file' s)
    (hc : ∀ m, call = .committed m true ↔ m = n ∧ done = true) :
    Safe base tags watched (⟨file', n⟩ :: rest) (r.note s call) where
  tags := by
    cases a <;> exact h.tags
  keeps := by
    cases a <;> exact h.keeps
  guarded := h.guarded.act a
  ledger := h.ledger.act a hc
  stands w hw := (h.stands w hw).act h.ledger h.guarded a hc

theorem opened (h : Safe base tags watched files r)
    (g : Guarded base (file.upload?.toList ++ uploads files) s)
    (ht : s.tags = r.store.tags) (ho : s.overwrite = r.store.overwrite)
    (keeps : Tree.Keeps base r.store.tags r.store.tree s.tree)
    (hu : ∀ u, file = .upload u → u.committed = false)
    (hc : ∀ p k c, Visible s.tags p → s.tree.node? p = some (.file k c) →
      ¬ file.Contests s.tree p) :
    Safe base tags watched (⟨file, r.files⟩ :: files)
      { r.note s (.opened r.files) with files := r.files + 1 } := by
  let r' : Recorded Served := { r.note s (.opened r.files) with files := r.files + 1 }
  have hcommitted : ∀ m, r'.committed m ↔ r.committed m := by
    intro m
    change (r.note s (.opened r.files)).committed m ↔ _
    simp [committed_note]
  have hnew : r.files ∉ files.map (·.number) := by
    intro hm
    obtain ⟨f, hf, he⟩ := List.mem_map.1 hm
    exact Nat.ne_of_lt (h.ledger.early f hf) he
  have ledger : Ledger files r' := h.ledger.sublist (.refl _) (Nat.le_succ _) hcommitted
  refine ⟨ht.trans h.tags, ho.trans h.keeps, g,
    ledger.cons (Nat.lt_succ_self _) hnew (fun hm => ?_) hu, fun w hw => ?_⟩
  · exact Nat.lt_irrefl _ (h.ledger.record _ ((hcommitted _).1 hm))
  · have stands : w.Stands base files r' := (h.stands w hw).keeps (List.Subset.refl _) h.guarded
      (Nat.le_succ _) hcommitted ht keeps
    exact stands.cons (fun hm => Nat.lt_irrefl _ ((h.stands w hw).early _ hm))
      fun hk => hc _ _ _ stands.visible hk

theorem draw (h : Safe base tags watched files r) {drawn : Nat} (hd : r.store.drawn ≤ drawn) :
    Safe base tags watched files { r with store := { r.store with drawn := drawn } } where
  tags := h.tags
  keeps := h.keeps
  guarded := h.guarded.draw hd
  ledger := h.ledger.sublist (.refl _) (Nat.le_refl _) fun _ => .rfl
  stands w hw := (h.stands w hw).keeps (List.Subset.refl _) h.guarded (Nat.le_refl _)
    (fun _ => .rfl) rfl (.refl _ _ _)

theorem release (h : Safe base tags watched (⟨file, n⟩ :: rest) r) :
    Safe base tags watched rest (r.note (r.store.release file).2 (.released n)) := by
  have hc : ∀ m, (r.note (r.store.release file).2 (.released n)).committed m ↔ r.committed m := by
    simp [committed_note]
  have ht : (r.store.release file).2.tags = r.store.tags ∧
      (r.store.release file).2.overwrite = r.store.overwrite := by
    cases file with
    | reader => exact ⟨rfl, rfl⟩
    | upload u =>
      obtain ⟨t, t', _, _, hs⟩ := r.store.release_upload u
      rw [hs]
      exact ⟨rfl, rfl⟩
  exact {
    tags := ht.1.trans h.tags
    keeps := ht.2.trans h.keeps
    guarded := h.guarded.release
    ledger := h.ledger.sublist (List.sublist_cons_self _ _) (Nat.le_refl _) hc
    stands := fun w hw => (h.stands w hw).keeps (List.subset_cons_self _ _) h.guarded
      (Nat.le_refl _) hc ht.1 (Guarded.release_keeps h.guarded) }

theorem kept (base : Nat) (tags : Nat → Bytes) (watched : List Watched) :
    Storage.Kept (fun r : Recorded Served => r.store.Fresh) (fun name => 0 ∉ name)
      (Safe base tags watched) where
  perm hp h := {
    tags := h.tags
    keeps := h.keeps
    guarded := h.guarded.perm (hp.flatMap_right _)
    ledger := h.ledger.perm hp
    stands := fun w hw => (h.stands w hw).perm hp }
  opened := by
    intro d name files r r' file ho fresh h0 h
    rw [Server.openFile_recorded] at ho
    have answer := h.guarded.answer fresh h0 d
    generalize Server.openFile d name r.store = opened at ho answer
    cases answer with
    | refused => cases ho
    | read =>
      cases ho
      exact h.opened h.guarded rfl rfl (.refl _ _ _) nofun fun _ _ _ _ _ ⟨_, hu, _⟩ => nomatch hu
    | @write _ p x _ o =>
      cases ho
      have hne : p ++ [stagingLast x (r.store.tags r.store.drawn)] ≠ [] := by simp
      have keeps := Tree.keeps_addFile base r.store.tags hne o.free
      refine h.opened (h.guarded.opened fresh o rfl) rfl rfl keeps (fun u hu => ?_) ?_
      · cases hu
        rfl
      · rintro q k c hv hk ⟨u, hu, _, ha⟩
        cases hu
        have hq := ha.unique (keeps.aims ⟨p, x, o.entry, rfl⟩)
        rw [Tree.node?_addFile hne] at hk
        split at hk
        · rename_i hs
          rw [hs] at hv
          exact hv x _ List.getLast?_concat
        · rw [hq] at hk
          rcases o.allowed with hs | ⟨ho, _⟩
          · have hf := o.found fun target hl => by cases hk.symm.trans hl
            cases (Tree.node?_of_missing hs hf).symm.trans hk
          · cases h.keeps.symm.trans ho
  refused := by
    intro d name files r r' e ho fresh h0 h
    rw [Server.openFile_recorded] at ho
    have answer := h.guarded.answer fresh h0 d
    generalize Server.openFile d name r.store = refused at ho answer
    cases answer with
    | refused _ le =>
      cases ho
      exact h.draw le
    | read | write => cases ho
  read := by
    intro n file file' files r r' got hr h
    rcases hs : r.store.read n file.file with ⟨got', h', s'⟩
    simp only [Storage.read, hs] at hr
    cases hr
    exact h.act (Served.read_act hs) (by simp)
  write := by
    intro block file file' files r r' done hw h
    rcases hs : r.store.write block file.file with ⟨done', h', s'⟩
    simp only [Storage.write, hs] at hw
    cases hw
    exact h.act (Served.write_act hs) (by simp)
  commit := by
    intro file file' files r r' done hc h
    rcases hs : r.store.commit file.file with ⟨done', h', s'⟩
    simp only [Storage.commit, hs] at hc
    cases hc
    refine h.act (Served.commit_act hs) fun m => ?_
    cases done' <;> simp [Except.mapError, Except.isOk, Except.toBool, eq_comm]
  release := by
    intro file files r h
    rw [Recorded.release_store]
    exact h.release

end Safe

end Disk
end Tftp
