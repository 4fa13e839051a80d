import Tftp.Proofs.Disk.Opening

namespace Tftp
namespace Disk

variable {t t' : Tree}

def Sink.Wrote (s : Sink) (t t' : Tree) : Prop :=
  t' = t ∨ ∃ k f, s = .file k ∧ t' = t.modify k f

namespace Writer

variable {w w' : Writer} {bytes : Bytes} {r : Except Cause Unit}

theorem store_wrote (w : Writer) (t : Tree) (k : Nat) (bytes : Bytes) :
    (w.store t k bytes).1.sink = w.sink ∧
      ((w.store t k bytes).2 = t ∨ ∃ f, (w.store t k bytes).2 = t.modify k f) := by
  unfold store
  split
  · exact ⟨rfl, .inl rfl⟩
  · exact ⟨rfl, .inr ⟨_, rfl⟩⟩

theorem flush_wrote (h : w.flush t bytes = (r, w', t')) :
    w'.sink = w.sink ∧ w.sink.Wrote t t' := by
  unfold flush at h
  dsimp only at h
  split at h
  · rename_i k hk
    obtain ⟨hs, hw⟩ := w.store_wrote t k (w.pendingBytes ++ bytes)
    cases h
    refine ⟨hs, ?_⟩
    rcases hw with hw | ⟨f, hw⟩
    · exact .inl hw
    · exact .inr ⟨k, f, hk, hw⟩
  · split at h <;> cases h <;> exact ⟨rfl, .inl rfl⟩
  · cases h
    exact ⟨rfl, .inl rfl⟩
  · split at h <;> cases h <;> exact ⟨rfl, .inl rfl⟩

theorem write_wrote (h : w.write t bytes = (r, w', t')) :
    w'.sink = w.sink ∧ w.sink.Wrote t t' := by
  unfold write at h
  split at h
  · cases h
    exact ⟨rfl, .inl rfl⟩
  · split at h
    · cases h
      exact ⟨rfl, .inl rfl⟩
    · exact flush_wrote h

theorem close_wrote (h : w.close t = (r, w', t')) : w'.sink = .closed ∧ w.sink.Wrote t t' := by
  unfold close at h
  split at h
  · rename_i hs
    cases h
    exact ⟨hs, .inl rfl⟩
  · rcases hf : w.flush t [] with ⟨r', w'', t''⟩
    obtain ⟨_, hw⟩ := flush_wrote hf
    rw [hf] at h
    dsimp only at h
    split at h <;> cases h <;> exact ⟨rfl, hw⟩

end Writer

namespace Tree

variable {text old : Bytes} {q : Place} {x y : Name} {base : Nat}

theorem child_eq_ok_iff {p : Place} : child p x = .ok q ↔ x.length ≤ maxName ∧ p ++ [x] = q := by
  unfold child
  split <;> simp <;> omega

def FilesOnly (base : Nat) (t : Tree) (y : Name) : Prop :=
  ∀ p n, t.node? p = some n → p.getLast? = some y → ∃ k c, base ≤ k ∧ n = .file k c

theorem remove_ok (hy : lastName? text = some y) (hf : t.FilesOnly base y)
    (h : t.remove text = .ok t') :
    ∃ p k c, p.getLast? = some y ∧ t.node? p = some (.file k c) ∧ t' = t.erase p := by
  unfold remove at h
  split at h
  · cases h
  · cases h
  · cases h
  · cases h
  · rename_i dir n trailing he
    cases (lastName?_of_findEntry he).symm.trans hy
    cases hc : child dir y with
    | error e => simp [hc, Except.bind] at h
    | ok p =>
      obtain ⟨_, rfl⟩ := child_eq_ok_iff.1 hc
      simp only [hc, Except.bind] at h
      cases hn : t.node? (dir ++ [y]) with
      | none => simp [removeChild, hn] at h
      | some m =>
        obtain ⟨k, c, _, rfl⟩ := hf _ _ hn List.getLast?_concat
        simp only [removeChild, hn] at h
        split at h
        · cases h
        · cases h
          exact ⟨_, k, c, List.getLast?_concat, hn, rfl⟩

theorem renameEntry_ok {p : Place} {k : Nat} {c : Content} {trailing : Bool}
    (h : t.renameEntry p q (.file k c) trailing = .ok t') :
    p = q ∧ t' = t ∨ p ≠ q ∧ t.node? q ≠ some .dir ∧ t' = t.move p q := by
  unfold renameEntry at h
  split at h
  · cases h
  · split at h
    · rename_i hpq
      cases h
      exact .inl ⟨hpq, rfl⟩
    · rename_i hpq
      split at h
      · cases h
      · split at h
        · cases h
        · split at h
          · cases h
          · rename_i hfree
            cases h
            refine .inr ⟨hpq, fun hd => ?_, rfl⟩
            simp [hd, obstacle?] at hfree

theorem renameChild_ok {p : Place} {trailing : Bool} (hf : t.FilesOnly base y)
    (h : t.renameChild (p, y) (q, x) trailing = .ok t') :
    ∃ p k c, p.getLast? = some y ∧ base ≤ k ∧ t.node? p = some (.file k c) ∧
      (p = q ++ [x] ∧ t' = t ∨
        p ≠ q ++ [x] ∧ t.node? (q ++ [x]) ≠ some .dir ∧ t' = t.move p (q ++ [x])) := by
  simp only [renameChild, bind, Except.bind] at h
  cases hp : child p y with
  | error e => simp [hp] at h
  | ok r =>
    obtain ⟨_, rfl⟩ := child_eq_ok_iff.1 hp
    simp only [hp] at h
    cases hn : t.node? (p ++ [y]) with
    | none => simp [hn] at h
    | some n =>
      obtain ⟨k, c, hk, rfl⟩ := hf _ _ hn List.getLast?_concat
      simp only [hn] at h
      cases hq : child q x with
      | error e => simp [hq] at h
      | ok r =>
        obtain ⟨_, rfl⟩ := child_eq_ok_iff.1 hq
        simp only [hq] at h
        exact ⟨_, k, c, List.getLast?_concat, hk, hn, renameEntry_ok h⟩

theorem rename_ok (hy : lastName? old = some y) (hf : t.FilesOnly base y)
    (he : t.findEntry text = .ok (q, .name x false)) (h : t.rename old text = .ok t') :
    ∃ p k c, p.getLast? = some y ∧ base ≤ k ∧ t.node? p = some (.file k c) ∧
      (p = q ++ [x] ∧ t' = t ∨
        p ≠ q ++ [x] ∧ t.node? (q ++ [x]) ≠ some .dir ∧ t' = t.move p (q ++ [x])) := by
  unfold rename at h
  cases ho : t.findEntry old with
  | error e => simp [ho, bind, Except.bind] at h
  | ok r =>
    obtain ⟨dir, last⟩ := r
    simp only [ho, he, bind, Except.bind] at h
    split at h
    · cases h
    · cases last with
      | root => cases h
      | here => cases h
      | above => cases h
      | name n trailing =>
        cases (lastName?_of_findEntry ho).symm.trans hy
        exact renameChild_ok hf h

end Tree

structure Upload.Follows (u u' : Upload) : Prop where
  target : u'.target = u.target
  staging : u'.staging = u.staging
  sink : u'.writer.sink = u.writer.sink ∨ u'.writer.sink = .closed

namespace Served

variable {s s' : Served} {h h' : Handle}

inductive Act (s : Served) : Bool → Handle → Handle → Served → Prop
  | reader {done : Bool} {r r' : Reader} {size : UInt64} :
    Act s done (.reader r size) (.reader r' size) s
  | upload {done : Bool} {u u' : Upload} {t' : Tree} (follows : u.Follows u')
      (committed : u'.committed = u.committed) (late : done = true → u.committed = true)
      (wrote : u.writer.sink.Wrote s.tree t') :
    Act s done (.upload u) (.upload u') { s with tree := t' }
  | commit {u u' : Upload} {t t' : Tree} (follows : u.Follows u') (early : u.committed = false)
      (committed : u'.committed = true) (closed : u'.writer.sink = .closed)
      (wrote : u.writer.sink.Wrote s.tree t) (renamed : t.rename u.staging u.target = .ok t') :
    Act s true (.upload u) (.upload u') { s with tree := t' }

theorem read_act {n : Nat} {got : Except Error Bytes} (hr : s.read n h = (got, h', s')) :
    Act s false h h' s' := by
  cases h with
  | reader r size =>
    obtain ⟨_, r', hread⟩ := s.read_reader_eq n r size
    cases hread.symm.trans hr
    exact .reader
  | upload u =>
    cases hr
    exact .upload ⟨rfl, rfl, .inl rfl⟩ rfl nofun (.inl rfl)

theorem write_act {bytes : Bytes} {done : Except Error Unit}
    (hw : s.write bytes h = (done, h', s')) : Act s false h h' s' := by
  cases h with
  | reader r size =>
    cases hw
    exact .reader
  | upload u =>
    rcases hc : u.writer.write s.tree bytes with ⟨r, w, t⟩
    obtain ⟨hs, ht⟩ := Writer.write_wrote hc
    simp only [write, hc] at hw
    cases r <;> cases hw <;> exact .upload ⟨rfl, rfl, .inl hs⟩ rfl nofun ht

theorem commit_act {done : Except Error Unit} (hc : s.commit h = (done, h', s')) :
    Act s done.isOk h h' s' := by
  cases h with
  | reader r size =>
    cases hc
    exact .reader
  | upload u =>
    simp only [commit] at hc
    split at hc
    · rename_i hu
      cases hc
      exact .upload ⟨rfl, rfl, .inl rfl⟩ rfl (fun _ => hu) (.inl rfl)
    · rename_i hu
      rcases hw : u.writer.close s.tree with ⟨r, w, t⟩
      obtain ⟨hs, ht⟩ := Writer.close_wrote hw
      simp only [commitUpload, hw] at hc
      cases r with
      | error e =>
        cases hc
        exact .upload ⟨rfl, rfl, .inr hs⟩ rfl nofun ht
      | ok =>
        cases hr : t.rename u.staging u.target with
        | error e =>
          simp only [hr] at hc
          cases hc
          exact .upload ⟨rfl, rfl, .inr hs⟩ rfl nofun ht
        | ok t' =>
          simp only [hr] at hc
          cases hc
          exact .commit ⟨rfl, rfl, .inr hs⟩ (by simpa using hu) rfl hs ht hr

theorem release_upload (s : Served) (u : Upload) : ∃ t t', u.writer.sink.Wrote s.tree t ∧
    (t' = t ∨ t.remove u.staging = .ok t') ∧
      (s.release (.upload u)).2 = { s with tree := t' } := by
  unfold release
  dsimp only
  split
  · exact ⟨s.tree, s.tree, .inl rfl, .inl rfl, rfl⟩
  · rcases hw : u.writer.close s.tree with ⟨r, w, t⟩
    have ht := (Writer.close_wrote hw).2
    dsimp only
    split
    · rename_i hr
      exact ⟨t, _, ht, .inr hr, rfl⟩
    · exact ⟨t, t, ht, .inl rfl, rfl⟩
    · exact ⟨t, t, ht, .inl rfl, rfl⟩

section

variable {n : Nat} {block : Bytes} {got : Except StorageError Bytes}
  {result : Except StorageError Unit}

theorem storage_read (hr : Storage.read n h s = (got, h', s')) :
    ∃ r, s.read n h = (r, h', s') ∧ got = r.mapError Error.toStorageError := by
  rcases hs : s.read n h with ⟨r, h'', s''⟩
  simp only [Storage.read, hs] at hr
  cases hr
  exact ⟨r, rfl, rfl⟩

theorem storage_write (hw : Storage.write block h s = (result, h', s')) :
    ∃ r, s.write block h = (r, h', s') ∧ result = r.mapError Error.toStorageError := by
  rcases hs : s.write block h with ⟨r, h'', s''⟩
  simp only [Storage.write, hs] at hw
  cases hw
  exact ⟨r, rfl, rfl⟩

theorem storage_commit (hc : Storage.commit h s = (result, h', s')) :
    ∃ r, s.commit h = (r, h', s') ∧ result = r.mapError Error.toStorageError := by
  rcases hs : s.commit h with ⟨r, h'', s''⟩
  simp only [Storage.commit, hs] at hc
  cases hc
  exact ⟨r, rfl, rfl⟩

theorem act_of_read (hr : Storage.read n h s = (got, h', s')) : Act s false h h' s' := by
  obtain ⟨_, hs, _⟩ := storage_read hr
  exact read_act hs

theorem act_of_write (hw : Storage.write block h s = (result, h', s')) : Act s false h h' s' := by
  obtain ⟨_, hs, _⟩ := storage_write hw
  exact write_act hs

theorem act_of_commit (hc : Storage.commit h s = (result, h', s')) :
    ∃ done, Act s done h h' s' := by
  obtain ⟨_, hs, _⟩ := storage_commit hc
  exact ⟨_, commit_act hs⟩

end

end Served
end Disk
end Tftp
