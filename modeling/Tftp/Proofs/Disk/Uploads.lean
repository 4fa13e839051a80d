import Tftp.Proofs.Disk.Changes
import Tftp.Proofs.Disk.Tags

namespace Tftp
namespace Disk

def Handle.upload? : Handle → Option Upload
  | .upload u => some u
  | .reader .. => none

def Upload.hidden? (u : Upload) : Option Name := lastName? u.staging

/-- The entry that is given up for an upload when it is committed. -/
def Upload.Aims (u : Upload) (t : Tree) (p : Place) : Prop :=
  ∃ q x, t.findEntry u.target = .ok (q, .name x false) ∧ q ++ [x] = p

/-- Whatever is in the second tree was in the first one, a file perhaps with other content, or it
is a file from `base` on that is not the one behind the sink. -/
def Sink.Spares (s : Sink) (base : Nat) (t t' : Tree) : Prop :=
  ∀ p n, t'.node? p = some n → t.node? p = some n ∨
    (∃ k c c', n = .file k c ∧ t.node? p = some (.file k c')) ∨
    ∃ k c, base ≤ k ∧ n = .file k c ∧ s ≠ .file k

/-- What holds of an open upload, where the files of the server have serial numbers from `base`
on. -/
structure Pending (base : Nat) (s : Served) (u : Upload) : Prop where
  aimed : ∃ p, u.Aims s.tree p ∧ s.tree.Dead p
  staged : ∃ x, ∃ i < s.drawn, u.hidden? = some (stagingLast x (s.tags i))
  own : ∀ k, u.writer.sink = .file k → k < s.tree.serial ∧
    ∀ p c, s.tree.node? p = some (.file k c) → p.getLast? = u.hidden?
  files : ∀ y, u.hidden? = some y → s.tree.FilesOnly base y

variable {s : Served} {t t' : Tree} {u u' v : Upload} {us : List Upload} {p p' : Place} {base : Nat}

theorem Upload.Aims.unique (h : u.Aims t p) (h' : u.Aims t p') : p = p' := by
  obtain ⟨q, x, he, rfl⟩ := h
  obtain ⟨q', x', he', rfl⟩ := h'
  cases he.symm.trans he'
  rfl

theorem Upload.Aims.steady (h : u.Aims t p) (steady : Tree.Steady t t') : u.Aims t' p := by
  obtain ⟨q, x, he, hp⟩ := h
  exact ⟨q, x, steady.findEntry he, hp⟩

theorem Tree.findEntry_name {text : Bytes} {x : Name} {trailing : Bool}
    (h : t.findEntry text = .ok (p, .name x trailing)) : t.node? p = some .dir ∧ 0 ∉ x := by
  have hl := lastName?_of_findEntry h
  have hm := (findEntry_eq_ok_iff.1 h).2.2
  rw [lastName?] at hl
  split at hm
  · cases hm.2
  · rename_i name before hd
    rw [hd] at hl
    cases hl
    have hx : x ∈ (Bytes.parts slash (Bytes.untilNul text)).reverse :=
      (List.dropWhile_sublist _).subset (hd ▸ List.mem_cons_self)
    refine ⟨hm.1.2, fun h0 => ?_⟩
    exact Bytes.not_mem_untilNul text (Bytes.mem_of_mem_parts (List.mem_reverse.1 hx) h0)

namespace Pending

theorem frame (h : Pending base s u) (steady : Tree.Steady s.tree t')
    (spares : u.writer.sink.Spares base s.tree t') (serial : s.tree.serial ≤ t'.serial) {n : Nat}
    (drawn : s.drawn ≤ n) : Pending base { s with tree := t', drawn := n } u where
  aimed := by
    obtain ⟨p, ha, hd⟩ := h.aimed
    exact ⟨p, ha.steady steady, steady.dead hd⟩
  staged := by
    obtain ⟨x, i, hi, hx⟩ := h.staged
    exact ⟨x, i, Nat.lt_of_lt_of_le hi drawn, hx⟩
  own k hk := by
    obtain ⟨hlt, hown⟩ := h.own k hk
    refine ⟨Nat.lt_of_lt_of_le hlt serial, fun p c hp => ?_⟩
    rcases spares p _ hp with hp | ⟨j, d, d', hj, hp⟩ | ⟨j, d, _, hj, hne⟩
    · exact hown p c hp
    · cases hj
      exact hown p d' hp
    · cases hj
      exact absurd hk hne
  files y hy p m hp hl := by
    rcases spares p m hp with hp | ⟨k, c, c', rfl, hp'⟩ | ⟨k, c, hk, hm, _⟩
    · exact h.files y hy p m hp hl
    · obtain ⟨j, d, hj, hd⟩ := h.files y hy p _ hp' hl
      cases hd
      exact ⟨k, c, hj, rfl⟩
    · exact ⟨k, c, hk, hm⟩

theorem follow (h : Pending base s u) (f : u.Follows u') : Pending base s u' := by
  have hidden : u'.hidden? = u.hidden? := by rw [Upload.hidden?, f.staging, Upload.hidden?]
  exact {
    aimed := by
      obtain ⟨p, ha, hd⟩ := h.aimed
      rw [Upload.Aims, ← f.target] at ha
      exact ⟨p, ha, hd⟩
    staged := hidden ▸ h.staged
    own := fun k hk => by
      rcases f.sink with hs | hs
      · exact hidden ▸ h.own k (hs ▸ hk)
      · cases hs.symm.trans hk
    files := hidden ▸ h.files }

theorem aims_back (h : Pending base s u) (keeps : ∀ q, u.Aims s.tree q → u.Aims t' q)
    (ha : u.Aims t' p) : u.Aims s.tree p := by
  obtain ⟨q, hq, _⟩ := h.aimed
  rwa [ha.unique (keeps q hq)]

end Pending

/-- What the calls on an upload can do to the tree, and the entry that is given up for it if it is
renamed, which is done after the upload was closed only. -/
inductive Change (base : Nat) (u : Upload) (t : Tree) : Option Place → Tree → Prop
  | same : Change base u t none t
  | wrote {k : Nat} (f : Content → Content) (sink : u.writer.sink = .file k) :
    Change base u t none (t.modify k f)
  | removed {p : Place} {k : Nat} {c : Content} (last : p.getLast? = u.hidden?)
      (file : t.node? p = some (.file k c)) : Change base u t none (t.erase p)
  | renamed {p q : Place} {k : Nat} {c : Content} (closed : u.writer.sink = .closed)
      (last : p.getLast? = u.hidden?) (made : base ≤ k) (file : t.node? p = some (.file k c))
      (aims : u.Aims t q) (apart : p ≠ q) (free : t.node? q ≠ some .dir) :
    Change base u t (some q) (t.move p q)

theorem Sink.Wrote.change (h : u.writer.sink.Wrote t t') : Change base u t none t' := by
  rcases h with rfl | ⟨k, f, hs, rfl⟩
  · exact .same
  · exact .wrote f hs

theorem Pending.remove (h : Pending base s u) (hr : s.tree.remove u.staging = .ok t') :
    Change base u s.tree none t' := by
  obtain ⟨x, i, _, hy⟩ := h.staged
  obtain ⟨p, k, c, hp, hk, rfl⟩ := Tree.remove_ok hy (h.files _ hy) hr
  exact .removed (hp.trans hy.symm) hk

theorem Pending.rename (h : Pending base s u) (closed : u.writer.sink = .closed)
    (ha : u.Aims s.tree p) (hr : s.tree.rename u.staging u.target = .ok t') :
    Change base u s.tree (some p) t' ∨ p.getLast? = u.hidden? ∧ t' = s.tree := by
  obtain ⟨x, i, _, hy⟩ := h.staged
  obtain ⟨q, y, he, rfl⟩ := ha
  obtain ⟨p, k, c, hp, hb, hk, ⟨rfl, rfl⟩ | ⟨hne, hd, rfl⟩⟩ :=
    Tree.rename_ok hy (h.files _ hy) he hr
  · exact .inr ⟨hp.trans hy.symm, rfl⟩
  · exact .inl (.renamed closed (hp.trans hy.symm) hb hk ⟨q, y, he, rfl⟩ hne hd)

namespace Change

variable {taken : Option Place} (wf : s.tree.WellFormed) (hu : Pending base s u)
  (h : Change base u s.tree taken t')

include h

theorem serial : t'.serial = s.tree.serial := by
  cases h <;> rfl

include wf hu

theorem steady : Tree.Steady s.tree t' := by
  cases h with
  | same => exact .refl _
  | wrote f _ => exact Tree.steady_modify _ _ f
  | removed _ file => exact Tree.steady_erase file
  | renamed _ _ _ file aims apart free =>
    obtain ⟨q, ha, hd⟩ := hu.aimed
    cases aims.unique ha
    exact wf.steady_move file free apart hd

theorem wellFormed : t'.WellFormed := by
  cases h with
  | same => exact wf
  | wrote f _ => exact wf.modify _ f
  | removed _ file => exact wf.erase file
  | renamed _ _ _ file aims apart free =>
    obtain ⟨q, ha, hd⟩ := hu.aimed
    cases aims.unique ha
    obtain ⟨q, x, he, rfl⟩ := ha
    obtain ⟨hq, hx⟩ := Tree.findEntry_name he
    exact wf.move file hq hx free apart hd

omit hu in
theorem single (hs : s.tree.Single base) : t'.Single base := by
  cases h with
  | same => exact hs
  | wrote f _ => exact hs.modify _ f
  | removed _ file =>
    apply hs.erase
    rintro rfl
    cases file
  | renamed _ _ _ file _ apart free => exact hs.move wf file free apart

theorem spares (hv : Pending base s v) (apart : v = u ∨ v.hidden? ≠ u.hidden?) :
    v.writer.sink.Spares base s.tree t' := by
  intro r n hr
  cases h with
  | same => exact .inl hr
  | wrote f _ =>
    cases n with
    | file j c =>
      obtain ⟨c', hr⟩ := Tree.node?_modify_file hr
      exact .inr (.inl ⟨j, c, c', rfl, hr⟩)
    | dir => exact .inl ((Tree.node?_modify_eq_iff (by nofun) f).1 hr)
    | link target => exact .inl ((Tree.node?_modify_eq_iff (by nofun) f).1 hr)
    | device d => exact .inl ((Tree.node?_modify_eq_iff (by nofun) f).1 hr)
  | @removed p _ _ _ file =>
    refine .inl (Tree.node?_of_erase ?_ hr)
    rintro rfl
    cases file
  | @renamed p q k c closed last made file _ hne free =>
    rw [wf.node?_move file free hne] at hr
    split at hr
    · cases file.symm.trans hr
      refine .inr (.inr ⟨k, c, made, rfl, fun hk => ?_⟩)
      -- the file was closed by its own upload, and it has the name of no other one
      rcases apart with rfl | apart
      · cases closed.symm.trans hk
      · exact absurd (((hv.own k hk).2 p c file).symm.trans last) apart
    · split at hr
      · cases hr
      · exact .inl hr

end Change

structure Guarded (base : Nat) (us : List Upload) (s : Served) : Prop where
  wellFormed : s.tree.WellFormed
  single : s.tree.Single base
  root : ∀ n ∈ s.root, 0 ∉ n
  tagging : Tagging s.tags
  pending : ∀ u ∈ us, Pending base s u
  apart : (us.map (·.hidden?)).Nodup

namespace Guarded

theorem perm {us' : List Upload} (p : us.Perm us') (h : Guarded base us s) : Guarded base us' s :=
  { h with
    pending := fun u hu => h.pending u (p.mem_iff.2 hu)
    apart := (p.map _).nodup_iff.1 h.apart }

theorem tail (h : Guarded base (u :: us) s) : Guarded base us s :=
  { h with
    pending := fun v hv => h.pending v (List.mem_cons_of_mem u hv)
    apart := (List.nodup_cons.1 h.apart).2 }

theorem follow (h : Guarded base (u :: us) s) (f : u.Follows u') : Guarded base (u' :: us) s :=
  { h with
    pending := fun v hv => by
      rcases List.mem_cons.1 hv with rfl | hv
      · exact (h.pending u List.mem_cons_self).follow f
      · exact h.pending v (List.mem_cons_of_mem u hv)
    apart := by
      have hidden : u'.hidden? = u.hidden? := by rw [Upload.hidden?, f.staging, Upload.hidden?]
      rw [List.map_cons, hidden]
      exact h.apart }

theorem draw (h : Guarded base us s) {n : Nat} (hn : s.drawn ≤ n) :
    Guarded base us { s with drawn := n } :=
  { h with
    pending := fun u hu => { h.pending u hu with
      staged := by
        obtain ⟨x, i, hi, hx⟩ := (h.pending u hu).staged
        exact ⟨x, i, Nat.lt_of_lt_of_le hi hn, hx⟩ } }

theorem change (h : Guarded base (u :: us) s) {taken : Option Place}
    (c : Change base u s.tree taken t') : Guarded base (u :: us) { s with tree := t' } := by
  have hu := h.pending u List.mem_cons_self
  exact { h with
    wellFormed := c.wellFormed h.wellFormed hu
    single := c.single h.wellFormed h.single
    pending := fun v hv => by
      have hne : v = u ∨ v.hidden? ≠ u.hidden? := by
        rcases List.mem_cons.1 hv with rfl | hv
        · exact .inl rfl
        · exact .inr fun he => (List.nodup_cons.1 h.apart).1 (List.mem_map.2 ⟨v, hv, he⟩)
      exact (h.pending v hv).frame (c.steady h.wellFormed hu)
        (c.spares h.wellFormed hu (h.pending v hv) hne) (Nat.le_of_eq c.serial.symm)
        (Nat.le_refl _) }

theorem commit (h : Guarded base (u :: us) s) (follows : u.Follows u')
    (closed : u'.writer.sink = .closed) (wrote : u.writer.sink.Wrote s.tree t)
    (renamed : t.rename u.staging u.target = .ok t') :
    Guarded base (u' :: us) { s with tree := t } ∧ ∃ p, u.Aims s.tree p ∧
      (Change base u' t (some p) t' ∨ p.getLast? = u'.hidden? ∧ t' = t) := by
  have hu := h.pending u List.mem_cons_self
  have hw : Guarded base (u' :: us) { s with tree := t } := (h.change wrote.change).follow follows
  obtain ⟨p, ha, _⟩ := hu.aimed
  have ha' : u'.Aims t p := by
    have hs := ha.steady (wrote.change.steady h.wellFormed hu)
    rwa [Upload.Aims, ← follows.target] at hs
  rw [← follows.staging, ← follows.target] at renamed
  exact ⟨hw, p, ha, (hw.pending u' List.mem_cons_self).rename closed ha' renamed⟩

theorem act {s' : Served} {done : Bool} {file file' : Handle}
    (h : Guarded base (file.upload?.toList ++ us) s) (a : s.Act done file file' s') :
    Guarded base (file'.upload?.toList ++ us) s' := by
  cases a with
  | reader => exact h
  | upload follows _ _ wrote => exact (h.change wrote.change).follow follows
  | commit follows _ _ closed wrote renamed =>
    obtain ⟨hw, p, _, c | ⟨_, rfl⟩⟩ := h.commit follows closed wrote renamed
    · exact hw.change c
    · exact hw

theorem steady {s' : Served} {done : Bool} {file file' : Handle}
    (h : Guarded base (file.upload?.toList ++ us) s) (a : s.Act done file file' s') :
    Tree.Steady s.tree s'.tree := by
  cases a with
  | reader => exact .refl _
  | upload _ _ _ wrote =>
    exact wrote.change.steady h.wellFormed (h.pending _ List.mem_cons_self)
  | commit follows _ _ closed wrote renamed =>
    have ht := wrote.change.steady h.wellFormed (h.pending _ List.mem_cons_self)
    obtain ⟨hw, p, _, c | ⟨_, rfl⟩⟩ := h.commit follows closed wrote renamed
    · exact ht.trans (c.steady hw.wellFormed (hw.pending _ List.mem_cons_self))
    · exact ht

theorem release_cases (h : Guarded base (u :: us) s) :
    ∃ t t', Change base u s.tree none t ∧ Guarded base (u :: us) { s with tree := t } ∧
      Change base u t none t' ∧ (s.release (.upload u)).2 = { s with tree := t' } := by
  obtain ⟨t, t', wrote, removed, hs⟩ := s.release_upload u
  have hw : Guarded base (u :: us) { s with tree := t } := h.change wrote.change
  refine ⟨t, t', wrote.change, hw, ?_, hs⟩
  rcases removed with rfl | removed
  · exact .same
  · exact (hw.pending u List.mem_cons_self).remove removed

theorem release {file : Handle} (h : Guarded base (file.upload?.toList ++ us) s) :
    Guarded base us (s.release file).2 := by
  cases file with
  | reader => exact h
  | upload u =>
    obtain ⟨t, t', _, hw, c, hs⟩ := h.release_cases
    rw [hs]
    exact (hw.change c).tail

theorem opened (h : Guarded base us s) (fresh : s.Fresh) {path : Bytes} {x : Name}
    (o : s.Opened path p x) {w : Writer} (hw : w.sink = .file s.tree.serial) : Guarded base
      ({ target := path
         staging := Served.stagingName path (s.tags s.drawn)
         writer := w } :: us)
      { s with
        tree := s.tree.addFile (p ++ [stagingLast x (s.tags s.drawn)])
        drawn := s.drawn + 1 } := by
  have hne : p ++ [stagingLast x (s.tags s.drawn)] ≠ [] := by simp
  have steady := Tree.steady_addFile hne o.free
  have hnode : ∀ r n, (s.tree.addFile (p ++ [stagingLast x (s.tags s.drawn)])).node? r = some n →
      r = p ++ [stagingLast x (s.tags s.drawn)] ∧ n = .file s.tree.serial #[] ∨
        s.tree.node? r = some n := by
    intro r n hr
    rw [Tree.node?_addFile hne] at hr
    split at hr
    · cases hr
      exact .inl ⟨‹_›, rfl⟩
    · exact .inr hr
  refine { h with
    wellFormed := h.wellFormed.addFile o.dir o.free o.plain
    single := h.single.addFile h.wellFormed hne
    pending := fun v hv => ?_
    apart := ?_ }
  · rcases List.mem_cons.1 hv with rfl | hv
    · refine ⟨⟨p ++ [x], ⟨p, x, steady.findEntry o.entry, rfl⟩, steady.dead o.dead⟩,
        ⟨x, s.drawn, Nat.lt_succ_self _, o.last⟩, fun k hk => ?_, fun y hy r n hr hl => ?_⟩
      · cases hw.symm.trans hk
        refine ⟨Nat.lt_succ_self _, fun r c hr => ?_⟩
        rcases hnode r _ hr with ⟨rfl, _⟩ | hr
        · exact List.getLast?_concat.trans o.last.symm
        · exact absurd (h.wellFormed.serials r _ c hr) (Nat.lt_irrefl _)
      · rcases hnode r n hr with ⟨_, rfl⟩ | hr
        · exact ⟨_, _, h.single.base_le, rfl⟩
        · cases o.last.symm.trans hy
          exact absurd hl (fresh r x (by simp [hr]))
    · refine (h.pending v hv).frame steady ?_ (Nat.le_succ _) (Nat.le_succ _)
      intro r n hr
      rcases hnode r n hr with ⟨_, rfl⟩ | hr
      · refine .inr (.inr ⟨_, _, h.single.base_le, rfl, fun hk => ?_⟩)
        exact absurd ((h.pending v hv).own _ hk).1 (Nat.lt_irrefl _)
      · exact .inl hr
  · refine List.nodup_cons.2 ⟨fun hm => ?_, h.apart⟩
    obtain ⟨v, hv, he⟩ := List.mem_map.1 hm
    obtain ⟨y, i, hi, hy⟩ := (h.pending v hv).staged
    have hlast := Option.some.inj ((hy.symm.trans he).trans o.last)
    have htag := stagingLast_tag (h.tagging.undotted i) (h.tagging.undotted s.drawn) hlast
    exact Nat.ne_of_lt hi (h.tagging.apart htag)

theorem answer (h : Guarded base us s) (fresh : s.Fresh) {name : Bytes} (h0 : 0 ∉ name)
    (d : Direction) : s.Answer name d (Server.openFile d name s) :=
  Served.answer h.wellFormed h.root (h.tagging.plain _) (h.tagging.flat _) fresh h0 d

end Guarded
end Disk
end Tftp
