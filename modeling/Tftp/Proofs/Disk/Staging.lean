import Tftp.Proofs.Disk.Uploads

namespace Tftp
namespace Disk

variable {t t' : Tree} {p q r : Place} {x y : Name} {i k : Nat} {c : Content} {old new : Bytes}

/-! Calls that succeed -/

namespace Tree

theorem remove_file (he : t.findEntry old = .ok (p, .name y false)) (hy : y.length ≤ maxName)
    (hk : t.node? (p ++ [y]) = some (.file k c)) : t.remove old = .ok (t.erase (p ++ [y])) := by
  have hc : child p y = .ok (p ++ [y]) := child_eq_ok_iff.2 ⟨hy, rfl⟩
  simp [remove, he, hc, Except.bind, removeChild, hk]

theorem rename_file (he : t.findEntry old = .ok (p, .name y false)) (hy : y.length ≤ maxName)
    (he' : t.findEntry new = .ok (p, .name x false)) (hx : x.length ≤ maxName) (hne : x ≠ y)
    (hk : t.node? (p ++ [y]) = some (.file k c)) (hd : t.node? (p ++ [x]) ≠ some .dir) :
    t.rename old new = .ok (t.move (p ++ [y]) (p ++ [x])) := by
  have hc : child p y = .ok (p ++ [y]) := child_eq_ok_iff.2 ⟨hy, rfl⟩
  have hc' : child p x = .ok (p ++ [x]) := child_eq_ok_iff.2 ⟨hx, rfl⟩
  have hfree : (t.node? (p ++ [x])).bind (fun n => t.obstacle? (p ++ [x]) n (.file k c)) = none := by
    cases hn : t.node? (p ++ [x]) with
    | none => rfl
    | some n =>
      cases n with
      | dir => exact absurd hn hd
      | file | link | device => rfl
  have hp : (p ++ [y]).isPrefixOf (p ++ [x]) = false := by
    rw [Bool.eq_false_iff, Ne, List.isPrefixOf_iff_prefix]
    intro hpre
    have heq := hpre.eq_of_length (by simp)
    simp [Ne.symm hne] at heq
  have hp' : (p ++ [x]).isPrefixOf (p ++ [y]) = false := by
    rw [Bool.eq_false_iff, Ne, List.isPrefixOf_iff_prefix]
    intro hpre
    have heq := hpre.eq_of_length (by simp)
    simp [hne] at heq
  simp [rename, he, he', bind, Except.bind, renameChild, hc, hc', hk, renameEntry, hp, hp',
    Ne.symm hne, hfree]

end Tree

theorem overwrite_size (bytes : Bytes) (c : Content) :
    overwrite c.size bytes c = c ++ bytes := by
  simp [overwrite]

theorem size_append (c : Content) (bytes : Bytes) :
    (c ++ bytes).size = c.size + bytes.length := by
  rw [← Array.length_toList]
  simp

namespace Writer

variable {w w' : Writer} {bytes stored : Bytes} {res : Except Cause Unit}

theorem flush_file (hs : w.sink = .file k) (t : Tree) (bytes : Bytes) :
    ∃ w' t', w.flush t bytes = (.ok (), w', t') ∧ w'.failed = w.failed := by
  simp only [flush, hs]
  refine ⟨_, _, rfl, ?_⟩
  unfold store emptied
  split <;> rfl

theorem write_file (hs : w.sink = .file k) (hf : w.failed = false) (t : Tree) (bytes : Bytes) :
    ∃ w' t', w.write t bytes = (.ok (), w', t') ∧ w'.failed = false := by
  obtain ⟨w', t', he, hf'⟩ := flush_file hs t bytes
  unfold write
  rw [hf, if_neg Bool.false_ne_true]
  split
  · exact ⟨_, _, rfl, rfl⟩
  · exact ⟨w', t', he, hf'.trans hf⟩

theorem close_file (hs : w.sink = .file k) (hf : w.failed = false) (t : Tree) :
    ∃ w' t', w.close t = (.ok (), w', t') := by
  obtain ⟨w', t', he, hf'⟩ := flush_file hs t []
  have hopen : w.sink ≠ .closed := by simp [hs]
  simp [close, hopen, he, emptied, hf'.trans hf]

theorem write_closed (hs : w.sink = .closed) (t : Tree) (bytes : Bytes) :
    ∃ res w', w.write t bytes = (res, w', t) ∧ w'.sink = .closed := by
  unfold write
  split
  · exact ⟨_, _, rfl, hs⟩
  · rw [if_neg (by simp [hs])]
    simp only [flush, hs]
    split
    · exact ⟨_, _, rfl, hs⟩
    · exact ⟨_, _, rfl, rfl⟩

/-! What a writer has written -/

def Holds (w : Writer) (t : Tree) (q : Place) (k : Nat) (stored : Bytes) : Prop :=
  ∃ c : Content, t.Owns q k c ∧ (w.append = false → w.position = c.size) ∧
    c.toList ++ w.pendingBytes = stored

theorem store_holds (hc : t.Owns q k c) (hp : w.append = false → w.position = c.size)
    (hne : bytes ≠ []) (hw : w.store t k bytes = (w', t')) :
    t'.Owns q k (c ++ bytes) ∧ (w'.append = false → w'.position = (c ++ bytes).size) := by
  have hend : (if w.append then ((t.content? k).getD #[]).size else w.position) = c.size := by
    cases ha : w.append with
    | true => simp [hc.content?]
    | false => simpa using hp ha
  simp only [store, List.isEmpty_eq_false_iff.2 hne, Bool.false_eq_true, if_false, hend] at hw
  cases hw
  refine ⟨?_, fun _ => (size_append c bytes).symm⟩
  have howns := hc.modify k (overwrite c.size bytes)
  rwa [if_pos rfl, overwrite_size] at howns

theorem Holds.flush (h : w.Holds t q k stored) (hs : w.sink = .file k)
    (hw : w.flush t bytes = (res, w', t')) :
    w'.Holds t' q k (stored ++ bytes) ∧ w'.pending = [] := by
  obtain ⟨c, hc, hp, heq⟩ := h
  rcases hv : w.store t k (w.pendingBytes ++ bytes) with ⟨v, u⟩
  simp only [Writer.flush, hs, hv] at hw
  cases hw
  refine ⟨?_, rfl⟩
  by_cases he : w.pendingBytes ++ bytes = []
  · simp only [store, he, List.isEmpty_nil, if_true] at hv
    cases hv
    refine ⟨c, hc, hp, ?_⟩
    rw [← heq, List.append_assoc, he]
    rfl
  · obtain ⟨hc', hp'⟩ := store_holds hc hp he hv
    exact ⟨_, hc', hp', by simp [emptied, pendingBytes, ← heq]⟩

theorem Holds.write (h : w.Holds t q k stored) (hs : w.sink = .file k) (hf : w.failed = false)
    (hw : w.write t bytes = (res, w', t')) : w'.Holds t' q k (stored ++ bytes) := by
  simp only [Writer.write, hf, Bool.false_eq_true, if_false] at hw
  split at hw
  · obtain ⟨c, hc, hp, heq⟩ := h
    cases hw
    exact ⟨c, hc, hp, by simp [pendingBytes, ← heq]⟩
  · exact (h.flush hs hw).1

theorem Holds.close (h : w.Holds t q k stored) (hs : w.sink = .file k)
    (hw : w.close t = (res, w', t')) : t'.node? q = some (.file k stored.toArray) := by
  have hopen : w.sink ≠ .closed := by simp [hs]
  rcases hf : w.flush t [] with ⟨r, v, u⟩
  obtain ⟨⟨c, hc, _, heq⟩, hempty⟩ := h.flush hs hf
  have hu : t' = u := by
    simp only [Writer.close, hopen, if_false, hf] at hw
    split at hw <;> exact (Prod.mk.inj (Prod.mk.inj hw).2).2.symm
  rw [pendingBytes, hempty, List.reverse_nil, List.flatten_nil, List.append_nil,
    List.append_nil] at heq
  rw [hu, hc.node, ← heq]

end Writer

/-! Where an upload writes -/

structure Upload.Staged (u : Upload) (t : Tree) (p : Place) (x y : Name) (k : Nat) : Prop where
  target : t.findEntry u.target = .ok (p, .name x false)
  staging : t.findEntry u.staging = .ok (p, .name y false)
  short : x.length ≤ maxName
  hiddenShort : y.length ≤ maxName
  apart : x ≠ y
  dead : t.Dead (p ++ [x])
  spared : t.node? (p ++ [x]) ≠ some .dir
  file : ∃ c, t.Owns (p ++ [y]) k c
  sole : ∀ r c, t.node? r = some (.file k c) → r = p ++ [y]
  sink : u.writer.sink = .file k
  sound : u.writer.failed = false
  early : u.committed = false

theorem stagingLast_ne (x tag : Bytes) : x ≠ stagingLast x tag := by
  intro h
  have hl := congrArg List.length h
  simp [stagingLast] at hl
  omega

namespace Sink.Wrote

variable {s : Sink} (h : s.Wrote t t')

include h

theorem steady : Tree.Steady t t' := by
  rcases h with rfl | ⟨k, f, _, rfl⟩
  · exact .refl t'
  · exact Tree.steady_modify t k f

theorem next (wf : t.WellFormed) : t.Next t' where
  steady := h.steady
  wellFormed := by
    rcases h with rfl | ⟨k, f, _, rfl⟩
    · exact wf
    · exact wf.modify k f
  serial := by rcases h with rfl | ⟨k, f, _, rfl⟩ <;> exact Nat.le_refl _

theorem node?_eq (hs : s = .file k) (hr : ∀ c, t.node? r ≠ some (.file k c)) :
    t'.node? r = t.node? r := by
  rcases h with rfl | ⟨j, f, hj, rfl⟩
  · rfl
  · cases hs.symm.trans hj
    rw [Tree.node?_modify]
    cases hn : t.node? r with
    | none => rfl
    | some n =>
      cases n with
      | file i c =>
        have hi : i ≠ k := by
          rintro rfl
          exact hr c hn
        simp [Node.modify, hi]
      | dir | link | device => rfl

theorem file (hk : t.Owns r k c) : ∃ c', t'.Owns r k c' := by
  rcases h with rfl | ⟨j, f, _, rfl⟩
  · exact ⟨c, hk⟩
  · exact ⟨_, hk.modify j f⟩

theorem owns (hs : s = .file i) (hk : t.Owns r k c) (hne : k ≠ i) : t'.Owns r k c := by
  rcases h with rfl | ⟨j, f, hj, rfl⟩
  · exact hk
  · cases hs.symm.trans hj
    have howns := hk.modify i f
    rwa [if_neg hne] at howns

theorem file_back (hk : t'.node? r = some (.file k c)) : ∃ c', t.node? r = some (.file k c') := by
  rcases h with rfl | ⟨j, f, _, rfl⟩
  · exact ⟨c, hk⟩
  · exact Tree.node?_modify_file hk

end Sink.Wrote

namespace Upload.Staged

variable {s : Served} {u : Upload} (h : u.Staged s.tree p x y k)

include h

theorem place_ne : p ++ [x] ≠ p ++ [y] := by simp [h.apart]

theorem transport (steady : Tree.Steady s.tree t')
    (file : ∃ c, t'.Owns (p ++ [y]) k c)
    (sole : ∀ r c, t'.node? r = some (.file k c) → r = p ++ [y]) : u.Staged t' p x y k :=
  { h with
    target := steady.findEntry h.target
    staging := steady.findEntry h.staging
    dead := steady.dead h.dead
    spared := mt (steady.dirs _).1 h.spared
    file := file
    sole := sole }

theorem wrote (w : u.writer.sink.Wrote s.tree t') : u.Staged t' p x y k :=
  h.transport w.steady (h.file.elim fun _ hc => w.file hc) fun r _ hr =>
    (w.file_back hr).elim fun _ hr => h.sole r _ hr

theorem node?_wrote (w : u.writer.sink.Wrote s.tree t') (hr : r ≠ p ++ [y]) :
    t'.node? r = s.tree.node? r :=
  w.node?_eq h.sink fun _ hc => hr (h.sole r _ hc)

theorem write (wf : s.tree.WellFormed) (block : Bytes) : ∃ w t,
    s.write block (.upload u) =
      (.ok (), .upload { u with writer := w, written := u.written + block.length },
        { s with tree := t }) ∧
    s.tree.Next t ∧
    ({ u with writer := w, written := u.written + block.length } : Upload).Staged t p x y k ∧
    (∀ stored, u.writer.Holds s.tree (p ++ [y]) k stored →
      w.Holds t (p ++ [y]) k (stored ++ block)) ∧
    (∀ r, r ≠ p ++ [y] → t.node? r = s.tree.node? r) ∧
    ∀ r j c, j ≠ k → s.tree.Owns r j c → t.Owns r j c := by
  obtain ⟨w, t, hw, hf⟩ := Writer.write_file h.sink h.sound s.tree block
  obtain ⟨hs, hwrote⟩ := Writer.write_wrote hw
  have hu := h.wrote hwrote
  exact ⟨w, t, by simp [Served.write, hw], hwrote.next wf,
    { hu with sink := hs.trans h.sink, sound := hf },
    fun _ hholds => hholds.write h.sink h.sound hw, fun _ hr => h.node?_wrote hwrote hr,
    fun _ _ _ hj hc => hwrote.owns h.sink hc hj⟩

theorem commit (wf : s.tree.WellFormed) : ∃ w t c,
    s.commit (.upload u) = (.ok (), .upload { u with writer := w, committed := true },
      { s with tree := t }) ∧
    w.sink = .closed ∧
    s.tree.Next t ∧
    (∀ stored, u.writer.Holds s.tree (p ++ [y]) k stored → c = stored.toArray) ∧
    (∀ r, t.node? r =
      if r = p ++ [x] then some (.file k c)
      else if r = p ++ [y] then none else s.tree.node? r) ∧
    ∀ r j c, r ≠ p ++ [x] → j ≠ k → s.tree.Owns r j c → t.Owns r j c := by
  obtain ⟨w, t, hw⟩ := Writer.close_file h.sink h.sound s.tree
  obtain ⟨hs, hwrote⟩ := Writer.close_wrote hw
  have hu := h.wrote hwrote
  have hnext := hwrote.next wf
  obtain ⟨c, howns⟩ := hu.file
  have hc := howns.node
  have hren := Tree.rename_file hu.staging hu.hiddenShort hu.target hu.short hu.apart hc hu.spared
  have hne := Ne.symm h.place_ne
  have hmove := fun r => hnext.wellFormed.node?_move (r := r) hc hu.spared hne
  refine ⟨w, t.move (p ++ [y]) (p ++ [x]), c,
    by simp [Served.commit, h.early, Served.commitUpload, hw, hren], hs, ?_, ?_, fun r => ?_,
    fun r j d hx hj hd => ?_⟩
  · have hentry := Tree.findEntry_name hu.target
    exact hnext.trans {
      wellFormed := hnext.wellFormed.move hc hentry.1 hentry.2 hu.spared hne hu.dead
      steady := hnext.wellFormed.steady_move hc hu.spared hne hu.dead
      serial := Nat.le_refl _ }
  · intro stored hholds
    have hstored := hholds.close h.sink hw
    exact (Node.file.inj (Option.some.inj (hc.symm.trans hstored))).2
  · rw [hmove, hc]
    split
    · rfl
    · split
      · rfl
      · exact h.node?_wrote hwrote ‹_›
  · have hd := hwrote.owns h.sink hd hj
    have hy : r ≠ p ++ [y] := by
      rintro rfl
      cases hc.symm.trans hd.node
      exact hj rfl
    refine hd.move (by simp) hx (fun hpre => ?_) ?_
    · exact hy (hnext.wellFormed.leaf hc r hpre (by simp [hd.node]))
    · rw [hmove, if_neg hx, if_neg hy]

theorem release (wf : s.tree.WellFormed) : ∃ t,
    s.release (.upload u) = ([], { s with tree := t }) ∧
    s.tree.Next t ∧
    (∀ r, t.node? r = if r = p ++ [y] then none else s.tree.node? r) ∧
    ∀ r j c, j ≠ k → s.tree.Owns r j c → t.Owns r j c := by
  obtain ⟨w, t, hw⟩ := Writer.close_file h.sink h.sound s.tree
  obtain ⟨_, hwrote⟩ := Writer.close_wrote hw
  have hu := h.wrote hwrote
  have hnext := hwrote.next wf
  obtain ⟨c, howns⟩ := hu.file
  have hc := howns.node
  have hrem := Tree.remove_file hu.staging hu.hiddenShort hc
  refine ⟨t.erase (p ++ [y]), by simp [Served.release, h.early, hw, hrem], ?_, fun r => ?_,
    fun r j d hj hd => ?_⟩
  · exact hnext.trans ⟨hnext.wellFormed.erase hc, Tree.steady_erase hc, Nat.le_refl _⟩
  · rw [Tree.node?_erase (by simp)]
    split
    · rfl
    · exact h.node?_wrote hwrote ‹_›
  · have hd := hwrote.owns h.sink hd hj
    refine hd.erase (by simp) ?_
    rintro rfl
    cases hc.symm.trans hd.node
    exact hj rfl

end Upload.Staged

/-! Files that nothing is done for any more -/

/-- An open file that nothing is done for any more: one that is read, or an upload that is in its
place. -/
def Handle.Settled : Handle → Prop
  | .reader .. => True
  | .upload u => u.committed = true ∧ u.writer.sink = .closed

variable {s : Served} {file : Handle}

theorem Handle.Settled.read (h : file.Settled) (n : Nat) :
    (s.read n file).2.1.Settled ∧ (s.read n file).2.2 = s := by
  cases file with
  | reader r size =>
    obtain ⟨_, r', hread⟩ := s.read_reader_eq n r size
    rw [hread]
    exact ⟨trivial, rfl⟩
  | upload u => exact ⟨h, rfl⟩

theorem Handle.Settled.write (h : file.Settled) (block : Bytes) :
    (s.write block file).2.1.Settled ∧ (s.write block file).2.2 = s := by
  cases file with
  | reader r size => exact ⟨trivial, rfl⟩
  | upload u =>
    obtain ⟨res, w, hw, hs⟩ := Writer.write_closed h.2 s.tree block
    unfold Served.write
    dsimp only
    rw [hw]
    cases res <;> exact ⟨⟨h.1, hs⟩, rfl⟩

theorem Handle.Settled.commit (h : file.Settled) :
    (s.commit file).2.1.Settled ∧ (s.commit file).2.2 = s := by
  cases file with
  | reader r size => exact ⟨trivial, rfl⟩
  | upload u =>
    rw [Served.commit, if_pos h.1]
    exact ⟨h, rfl⟩

theorem Handle.Settled.release (h : file.Settled) : (s.release file).2 = s := by
  cases file with
  | reader r size => rfl
  | upload u => rw [Served.release, if_pos h.1]

/-! The staging file that is made -/

namespace Served

variable {s : Served} {path : Bytes} {truncate : Bool} {w : Writer}

theorem Made.wrote (m : s.Made truncate path q w t') :
    w.sink = .file s.tree.serial ∧ w.failed = false ∧
      w.sink.Wrote (s.tree.addFile q) t' := by
  cases m with
  | empty _ => exact ⟨rfl, rfl, .inl rfl⟩
  | copy _ _ => exact ⟨rfl, rfl, .inr ⟨_, _, rfl, rfl⟩⟩

theorem Made.holds (m : s.Made truncate path q w t') (hq : q ≠ []) :
    w.Holds t' q s.tree.serial (s.base truncate path) := by
  have hadd := Tree.Owns.addFile_self s.tree hq
  cases m with
  | empty bare => exact ⟨#[], hadd, fun _ => rfl, bare.symm⟩
  | @copy r j c keep found =>
    have hset := hadd.modify s.tree.serial fun _ => c
    rw [if_pos rfl] at hset
    exact ⟨c, hset, nofun, by simp [base, keep, found, Writer.pendingBytes]⟩

theorem Made.node?_eq (m : s.Made truncate path q w t') (hq : q ≠ []) (wf : s.tree.WellFormed)
    (hr : r ≠ q) : t'.node? r = s.tree.node? r := by
  have hadd := Tree.node?_addFile (t := s.tree) (r := r) hq
  rw [if_neg hr] at hadd
  rw [m.wrote.2.2.node?_eq m.wrote.1, hadd]
  intro c hc
  exact Nat.lt_irrefl _ (wf.serials r _ c (hadd.symm.trans hc))

section

variable (o : s.Opened path p x)
  (m : s.Made truncate path (p ++ [stagingLast x (s.tags s.drawn)]) w t')

include o m

theorem Opened.next (wf : s.tree.WellFormed) : s.tree.Next t' :=
  have added : s.tree.Next (s.tree.addFile (p ++ [stagingLast x (s.tags s.drawn)])) := {
    wellFormed := wf.addFile o.dir o.free o.plain
    steady := Tree.steady_addFile (by simp) o.free
    serial := Nat.le_succ _ }
  added.trans (m.wrote.2.2.next added.wellFormed)

theorem Opened.upload (wf : s.tree.WellFormed) :
    ({ target := path
       staging := stagingName path (s.tags s.drawn)
       writer := w } : Upload).Staged t' p x (stagingLast x (s.tags s.drawn)) s.tree.serial := by
  have steady := (o.next m wf).steady
  exact {
    target := steady.findEntry o.entry
    staging := steady.findEntry o.staged
    short := o.short
    hiddenShort := o.stagedShort
    apart := stagingLast_ne x _
    dead := steady.dead o.dead
    spared := mt (steady.dirs _).1 o.spared
    file := m.wrote.2.2.file (Tree.Owns.addFile_self s.tree (by simp))
    sole := fun r c hr => by
      by_contra hne
      exact Nat.lt_irrefl _ (wf.serials r _ c ((m.node?_eq (by simp) wf hne).symm.trans hr))
    sink := m.wrote.1
    sound := m.wrote.2.1
    early := rfl }

end

end Served
end Disk
end Tftp
