import Mathlib.Logic.Function.Basic
import Tftp.Proofs.Disk.Resolve
import Tftp.Proofs.Disk.Staging
import Tftp.Proofs.Storage.Journal
import Tftp.Proofs.Storage.Kept

/-!
The layout of a tree while uploads are under way: it is the tree they have found, with the files
that were completed in their places and one staging file for each upload. Every operation of the
server keeps it.
-/

namespace Tftp
namespace Disk

/-! The tree as it is expected -/

/-- What is shown of a node when new files, those from a serial number on, are not told apart. -/
def Node.shown (base : Nat) : Node → Node
  | .file k c => .file (min k base) c
  | n => n

namespace Tree

def shown (t : Tree) (base : Nat) (p : Place) : Option Node := (t.node? p).map (.shown base)

def entryAt? (t : Tree) (text : Bytes) : Option Place :=
  match t.findEntry text with
  | .ok (dir, .name n _) => some (dir ++ [n])
  | _ => none

/-- Puts a new file in the place of the entry of a path. The directories of a tree stay where they
are, so the entry is looked up in the tree as it was. -/
def replaced (t : Tree) (nodes : Place → Option Node) (done : Bytes × Bytes) :
    Place → Option Node :=
  match t.entryAt? done.1 with
  | some p => Function.update nodes p (some (.file t.serial done.2.toArray))
  | none => nodes

/-- What stands in a tree after some paths got files with certain bytes, one after the other. -/
def expected (t : Tree) (completed : List (Bytes × Bytes)) : Place → Option Node :=
  completed.foldl t.replaced t.node?

variable {t t' : Tree} {p q r : Place} {text : Bytes}

theorem expected_concat (completed : List (Bytes × Bytes)) (done : Bytes × Bytes) :
    t.expected (completed ++ [done]) = t.replaced (t.expected completed) done := by
  simp [expected]

theorem replaced_of_entry {nodes : Place → Option Node} {done : Bytes × Bytes}
    (h : t.entryAt? done.1 = some p) :
    t.replaced nodes done r = if r = p then some (.file t.serial done.2.toArray) else nodes r := by
  rw [replaced, h]
  exact Function.update_apply nodes p _ r

def last? (t : Tree) (completed : List (Bytes × Bytes)) (p : Place) : Option Bytes :=
  (completed.reverse.find? fun done => t.entryAt? done.1 = some p).map (·.2)

theorem expected_eq (t : Tree) (completed : List (Bytes × Bytes)) (p : Place) :
    t.expected completed p = match t.last? completed p with
      | some bytes => some (.file t.serial bytes.toArray)
      | none => t.node? p := by
  induction completed using List.reverseRecOn with
  | nil => rfl
  | append_singleton completed done ih =>
    rw [expected_concat, last?, List.reverse_concat, List.find?_cons]
    by_cases h : t.entryAt? done.1 = some p
    · rw [replaced_of_entry h]
      simp [h]
    · have hsame : t.replaced (t.expected completed) done p = t.expected completed p := by
        cases he : t.entryAt? done.1 with
        | none => rw [replaced, he]
        | some q =>
          rw [replaced_of_entry he, if_neg]
          rintro rfl
          exact h he
      rw [hsame, ih]
      simp [h, last?]

theorem shown_congr {base : Nat} (h : t'.node? r = t.node? r) :
    t'.shown base r = t.shown base r := by
  rw [shown, shown, h]

theorem shown_self (wf : t.WellFormed) : t.shown t.serial r = t.node? r := by
  unfold shown
  cases hn : t.node? r with
  | none => rfl
  | some n =>
    cases n with
    | file k c => simp [Node.shown, Nat.le_of_lt (wf.serials r k c hn)]
    | dir | link | device => rfl

theorem entryAt?_of_find {x : Name} {trailing : Bool}
    (h : t.findEntry text = .ok (p, .name x trailing)) : t.entryAt? text = some (p ++ [x]) := by
  rw [entryAt?, h]

theorem Steady.findEntry_back (s : Steady t t') {last : LastName}
    (h : t'.findEntry text = .ok (q, last)) : t.findEntry text = .ok (q, last) := by
  have ho : t.origin (Bytes.untilNul text) = t'.origin (Bytes.untilNul text) := by
    rw [origin, origin, s.cwd]
  rw [findEntry_eq_ok_iff] at h ⊢
  rw [ho]
  refine ⟨h.1, h.2.1, ?_⟩
  have hm := h.2.2
  split at hm
  · exact hm
  · exact ⟨s.leads_back hm.1, hm.2⟩

/-- All that is new is at one place or under a name that no staging file has, and of the files
there one only is new. The other files with the names of staging files have what they had. -/
structure Touches (t t' : Tree) (tags : Nat → Bytes) (q : Place) (k : Nat) : Prop where
  nodes : ∀ r, t'.node? r = t.node? r ∨
    (r = q ∨ Visible tags r) ∧ ∀ j c, t'.node? r = some (.file j c) → j = k
  owns : ∀ r j c, ¬ Visible tags r → j ≠ k → t.Owns r j c → t'.Owns r j c

end Tree

theorem Served.Made.touches {s : Served} {truncate : Bool} {path : Bytes} {q : Place} {w : Writer}
    {t' : Tree} (m : s.Made truncate path q w t') (hq : q ≠ []) (free : s.tree.node? q = none)
    (wf : s.tree.WellFormed) (tags : Nat → Bytes) : s.tree.Touches t' tags q s.tree.serial where
  nodes r := by
    by_cases hr : r = q
    · refine .inr ⟨.inl hr, fun j c hj => ?_⟩
      obtain ⟨d, hd⟩ := m.wrote.2.2.file (Tree.Owns.addFile_self s.tree hq)
      rw [hr, hd.node] at hj
      exact (Node.file.inj (Option.some.inj hj)).1.symm
    · exact .inl (m.node?_eq hq wf hr)
  owns r j c _ hj hc := by
    have hr : r ≠ q := by
      rintro rfl
      cases free.symm.trans hc.node
    exact m.wrote.2.2.owns m.wrote.1 (hc.addFile hq hr hj) hj

end Disk

/-! One draft -/

namespace Draft

open Disk

structure UnderWay (d : Draft Handle) (base : Nat) (s : Served) (u : Upload) (p : Place)
    (x : Name) (i k : Nat) : Prop where
  file : d.file = .upload u
  path : d.path? = some u.target
  drawn : i < s.drawn
  made : base ≤ k
  visible : Visible s.tags (p ++ [x])
  staged : u.Staged s.tree p x (stagingLast x (s.tags i)) k
  holds : u.writer.Holds s.tree (p ++ [stagingLast x (s.tags i)]) k d.blocks.flatten

def Stands (d : Draft Handle) (base : Nat) (s : Served) : Prop :=
  d.path? = none ∧ d.file.Settled ∨ ∃ u p x i k, d.UnderWay base s u p x i k

def staging? (d : Draft Handle) (t : Tree) : Option Place :=
  d.path?.bind fun _ => d.file.upload?.bind fun u => t.entryAt? u.staging

variable {s : Served} {d : Draft Handle} {base n : Nat} {u : Upload} {p q : Place} {x : Name}
  {i k m : Nat} {t t' : Tree}

theorem underWay_opened {path : Bytes} {truncate : Bool} {w : Writer} {blocks : List Bytes}
    (o : s.Opened path p x) (m : s.Made truncate path (p ++ [stagingLast x (s.tags s.drawn)]) w t')
    (wf : s.tree.WellFormed) (hv : Visible s.tags (p ++ [x])) (hb : base ≤ s.tree.serial)
    (hblocks : blocks.flatten = s.base truncate path) :
    let u : Upload := {
      target := path
      staging := Served.stagingName path (s.tags s.drawn)
      writer := w }
    Draft.UnderWay { file := .upload u, path? := some path, blocks := blocks } base
      { s with tree := t', drawn := s.drawn + 1 } u p x s.drawn s.tree.serial where
  file := rfl
  path := rfl
  drawn := Nat.lt_succ_self _
  made := hb
  visible := hv
  staged := o.upload m wf
  holds := hblocks ▸ m.holds (by simp)

theorem UnderWay.staging? (h : d.UnderWay base s u p x i k) (steady : Tree.Steady t s.tree) :
    d.staging? t = some (p ++ [stagingLast x (s.tags i)]) := by
  rw [Draft.staging?, h.path, h.file]
  exact Tree.entryAt?_of_find (steady.findEntry_back h.staged.staging)

theorem UnderWay.target (h : d.UnderWay base s u p x i k) (steady : Tree.Steady t s.tree) :
    t.entryAt? u.target = some (p ++ [x]) :=
  Tree.entryAt?_of_find (steady.findEntry_back h.staged.target)

theorem UnderWay.entry (h : d.UnderWay base s u p x i k) :
    d.entry (.ok ()) = [(u.target, d.blocks.flatten)] := by
  simp [Draft.entry, h.path]

theorem UnderWay.frame (h : d.UnderWay base s u p x i k) (steady : Tree.Steady s.tree t')
    (touches : s.tree.Touches t' s.tags q m) (hm : k ≠ m) (hn : s.drawn ≤ n) :
    d.UnderWay base { s with tree := t', drawn := n } u p x i k := by
  have hidden : ¬ Visible s.tags (p ++ [stagingLast x (s.tags i)]) := fun hv =>
    hv x i List.getLast?_concat
  have howns := fun c => touches.owns _ k c hidden hm
  exact { h with
    drawn := Nat.lt_of_lt_of_le h.drawn hn
    staged := h.staged.transport steady (h.staged.file.imp howns) fun r c hr => by
      rcases touches.nodes r with heq | ⟨_, hown⟩
      · exact h.staged.sole r c (heq ▸ hr)
      · exact absurd (hown k c hr) hm
    holds := h.holds.imp fun c hc => ⟨howns c hc.1, hc.2⟩ }

theorem Stands.frame (h : d.Stands base s) (steady : Tree.Steady s.tree t')
    (touches : s.tree.Touches t' s.tags q m) (hn : s.drawn ≤ n)
    (apart : ∀ u p x i k, d.UnderWay base s u p x i k → k ≠ m) :
    d.Stands base { s with tree := t', drawn := n } := by
  rcases h with h | ⟨u, p, x, i, k, h⟩
  · exact .inl h
  · exact .inr ⟨u, p, x, i, k, h.frame steady touches (apart u p x i k h) hn⟩

end Draft

namespace Disk

/-! All drafts -/

/-- No part of a name could be the name of a staging file. -/
def Unhidden (tags : Nat → Bytes) (name : Bytes) : Prop :=
  ∀ part ∈ Bytes.parts slash name, ∀ x i, part ≠ stagingLast x (tags i)

theorem visible_target {s : Served} {tags : Nat → Bytes} {p : Place} {x : Name} {name : Bytes}
    {path : Path} (hr : s.resolve name = .ok path)
    (o : s.Opened path.text p x) (h0 : 0 ∉ name) (hroot : ∀ n ∈ s.root, Legible n)
    (hn : Unhidden tags name) : Visible tags (p ++ [x]) := by
  have hres := Served.resolved_of_resolve hr
  obtain ⟨init, hp, _⟩ := hres.last h0 hroot o.entry
  intro y i hl
  rw [List.getLast?_concat] at hl
  exact hn x (hres.last_mem hp o.proper.1) y i (Option.some.inj hl)

def stagings (t : Tree) (drafts : List (Draft Handle)) : List Place :=
  drafts.filterMap (·.staging? t)

theorem stagings_underWay {s : Served} {t : Tree} {d : Draft Handle} {base : Nat} {u : Upload}
    {p : Place} {x : Name} {i k : Nat} (h : d.UnderWay base s u p x i k)
    (steady : Tree.Steady t s.tree) (ds : List (Draft Handle)) :
    stagings t (d :: ds) = (p ++ [stagingLast x (s.tags i)]) :: stagings t ds :=
  List.filterMap_cons_some (f := fun e : Draft Handle => e.staging? t) (h.staging? steady)

theorem stagings_settled {t : Tree} {d : Draft Handle} (h : d.path? = none)
    (ds : List (Draft Handle)) : stagings t (d :: ds) = stagings t ds :=
  List.filterMap_cons_none (f := fun e : Draft Handle => e.staging? t) (by simp [Draft.staging?, h])

/-- A tree with some drafts on it, where `t` is the tree that the first of them has found. -/
structure Layout (t : Tree) (tags : Nat → Bytes) (drafts : List (Draft Handle))
    (j : Journal Served) : Prop where
  wellFormed : j.store.tree.WellFormed
  steady : Tree.Steady t j.store.tree
  serial : t.serial ≤ j.store.tree.serial
  tagged : j.store.tags = tags
  root : ∀ n ∈ j.store.root, Legible n
  stands : ∀ d ∈ drafts, d.Stands t.serial j.store
  apart : (stagings t drafts).Nodup
  same : ∀ r ∉ stagings t drafts, j.store.tree.shown t.serial r = t.expected j.completed r
  visible : ∀ r, t.expected j.completed r ≠ none → Visible tags r

namespace Layout

variable {t t' : Tree} {tags : Nat → Bytes} {d d' : Draft Handle} {ds : List (Draft Handle)}
  {j : Journal Served} {u : Upload} {p q r : Place} {x : Name} {i k : Nat}

theorem of_openAt {root : Bytes} {overwrite : Bool} {served : Served}
    (opened : ∃ faults, Served.openAt t root overwrite tags faults = .ok served) (lawful : t.Lawful)
    (visible : ∀ p, t.node? p ≠ none → Visible tags p) :
    Layout t tags [] ({ store := served } : Journal Served) := by
  obtain ⟨faults, opened⟩ := opened
  obtain ⟨place, hplace, rfl⟩ := Served.of_openAt opened
  exact {
    wellFormed := lawful.toWellFormed
    steady := .refl t
    serial := Nat.le_refl _
    tagged := rfl
    root := lawful.legible_of (by simp [hplace])
    stands := nofun
    apart := List.nodup_nil
    same := fun r _ => Tree.shown_self lawful.toWellFormed
    visible := visible }

theorem perm {ds' : List (Draft Handle)} (hp : ds.Perm ds') (h : Layout t tags ds j) :
    Layout t tags ds' j :=
  have hs : (stagings t ds).Perm (stagings t ds') := hp.filterMap _
  { h with
    stands := fun d hd => h.stands d (hp.mem_iff.2 hd)
    apart := hs.nodup_iff.1 h.apart
    same := fun r hr => h.same r (mt hs.mem_iff.1 hr) }

theorem of_mem_stagings (h : Layout t tags ds j) (hq : q ∈ stagings t ds) :
    ∃ d ∈ ds, ∃ u p x i k, d.UnderWay t.serial j.store u p x i k ∧
      q = p ++ [stagingLast x (tags i)] := by
  obtain ⟨d, hd, hs⟩ := List.mem_filterMap.1 hq
  rcases h.stands d hd with ⟨hnone, _⟩ | ⟨u, p, x, i, k, hu⟩
  · rw [Draft.staging?, hnone] at hs
    cases hs
  · refine ⟨d, hd, u, p, x, i, k, hu, ?_⟩
    rw [hu.staging? h.steady, h.tagged] at hs
    exact (Option.some.inj hs).symm

theorem staging_file (h : Layout t tags ds j) (hq : q ∈ stagings t ds) : ¬ Visible tags q ∧
    ∃ k c, t.serial ≤ k ∧ j.store.tree.node? q = some (.file k c) := by
  obtain ⟨_, _, u, p, x, i, k, hu, rfl⟩ := h.of_mem_stagings hq
  obtain ⟨c, hc⟩ := hu.staged.file
  rw [h.tagged] at hc
  exact ⟨fun hv => hv x i List.getLast?_concat, k, c, hu.made, hc.node⟩

theorem hidden (h : Layout t tags ds j) (hq : q ∈ stagings t ds) :
    t.expected j.completed q = none := by
  by_contra hne
  exact (h.staging_file hq).1 (h.visible _ hne)

theorem fresh (h : Layout t tags ds j) (tagging : Tagging tags) : j.store.Fresh := by
  intro p x hp hl
  rw [h.tagged] at hl
  by_cases hm : p ∈ stagings t ds
  · obtain ⟨d, _, u, q, y, i, k, hu, rfl⟩ := h.of_mem_stagings hm
    rw [List.getLast?_concat] at hl
    have htag := stagingLast_tag (tagging.undotted i) (tagging.undotted _) (Option.some.inj hl)
    exact Nat.ne_of_lt hu.drawn (tagging.apart htag)
  · have hs := h.same p hm
    obtain ⟨n, hn⟩ := Option.ne_none_iff_exists'.1 hp
    rw [Tree.shown, hn] at hs
    exact h.visible p (by simp [← hs]) x _ hl

theorem others (h : Layout t tags (d :: ds) j) (hd : d.UnderWay t.serial j.store u p x i k)
    {v : Draft Handle} (hv : v ∈ ds) {u' : Upload} {p' : Place} {x' : Name} {i' k' : Nat}
    (hu : v.UnderWay t.serial j.store u' p' x' i' k') : k' ≠ k := by
  rintro rfl
  obtain ⟨c, hc⟩ := hd.staged.file
  have heq := hu.staged.sole _ c hc.node
  have ha := h.apart
  rw [stagings_underWay hd h.steady] at ha
  refine (List.nodup_cons.1 ha).1 (List.mem_filterMap.2 ⟨v, hv, ?_⟩)
  rw [hu.staging? h.steady, heq]

theorem act (h : Layout t tags (d :: ds) j) (hd : d.UnderWay t.serial j.store u p x i k)
    (next : j.store.tree.Next t')
    (touches : j.store.tree.Touches t' tags (p ++ [stagingLast x (tags i)]) k)
    (new : List (Draft Handle)) {completed : List (Bytes × Bytes)}
    (stands : ∀ d' ∈ new, d'.Stands t.serial { j.store with tree := t' })
    (places : (stagings t new).Sublist [p ++ [stagingLast x (tags i)]])
    (same : ∀ r ∉ stagings t (new ++ ds), t'.shown t.serial r = t.expected completed r)
    (visible : ∀ r, t.expected completed r ≠ none → Visible tags r) :
    Layout t tags (new ++ ds) { store := { j.store with tree := t' }, completed := completed } where
  wellFormed := next.wellFormed
  steady := h.steady.trans next.steady
  serial := Nat.le_trans h.serial next.serial
  tagged := h.tagged
  root := h.root
  stands v hv := by
    rcases List.mem_append.1 hv with hv | hv
    · exact stands v hv
    · rw [← h.tagged] at touches
      exact (h.stands v (List.mem_cons_of_mem d hv)).frame next.steady touches (Nat.le_refl _)
        fun _ _ _ _ _ hu => h.others hd hv hu
  apart := by
    refine h.apart.sublist ?_
    rw [stagings_underWay hd h.steady, h.tagged, stagings, List.filterMap_append]
    exact places.append (.refl _)
  same := same
  visible := visible

theorem elsewhere (h : Layout t tags (d :: ds) j) (hd : d.UnderWay t.serial j.store u p x i k)
    (hr : r ∉ stagings t ds) (hne : r ≠ p ++ [stagingLast x (j.store.tags i)]) :
    j.store.tree.shown t.serial r = t.expected j.completed r := by
  refine h.same r ?_
  rw [stagings_underWay hd h.steady, List.mem_cons, not_or]
  exact ⟨hne, hr⟩

theorem hidden_underWay (h : Layout t tags (d :: ds) j)
    (hd : d.UnderWay t.serial j.store u p x i k) :
    t.expected j.completed (p ++ [stagingLast x (j.store.tags i)]) = none := by
  refine h.hidden ?_
  rw [stagings_underWay hd h.steady]
  exact List.mem_cons_self

theorem add (h : Layout t tags ds j) (hd : d.path? = none) (hs : d.file.Settled) :
    Layout t tags (d :: ds) j :=
  have heq := stagings_settled hd ds
  { h with
    stands := fun e he => by
      rcases List.mem_cons.1 he with rfl | he
      · exact .inl ⟨hd, hs⟩
      · exact h.stands e he
    apart := heq ▸ h.apart
    same := heq ▸ h.same }

theorem drop (h : Layout t tags (d :: ds) j) (hd : d.path? = none) : Layout t tags ds j :=
  have heq := stagings_settled hd ds
  { h with
    stands := fun e he => h.stands e (List.mem_cons_of_mem d he)
    apart := heq ▸ h.apart
    same := heq ▸ h.same }

theorem read {n : Nat} {got : Except StorageError Bytes} {j' : Journal Served}
    (hr : Storage.read n d j = (got, d', j')) (h : Layout t tags (d :: ds) j) :
    Layout t tags (d' :: ds) j' := by
  rcases hs : j.store.read n d.file with ⟨res, file, s⟩
  simp only [Storage.read, hs] at hr
  cases hr
  rcases h.stands d List.mem_cons_self with ⟨hp, hd⟩ | ⟨u, p, x, i, k, hd⟩
  · obtain ⟨hfile, hstore⟩ := hd.read (s := j.store) n
    rw [hs] at hfile hstore
    cases hstore
    exact (h.drop hp).add hp hfile
  · rw [hd.file] at hs
    cases hs
    rw [← hd.file]
    exact h

theorem write {block : Bytes} {done : Except StorageError Unit} {j' : Journal Served}
    (hw : Storage.write block d j = (done, d', j')) (h : Layout t tags (d :: ds) j) :
    Layout t tags (d' :: ds) j' := by
  rcases hs : j.store.write block d.file with ⟨res, file, s⟩
  simp only [Storage.write, hs] at hw
  cases hw
  rcases h.stands d List.mem_cons_self with ⟨hp, hd⟩ | ⟨u, p, x, i, k, hd⟩
  · obtain ⟨hfile, hstore⟩ := hd.write (s := j.store) block
    rw [hs] at hfile hstore
    cases hstore
    exact (h.drop hp).add ((Draft.path?_wrote _ _ _ _).trans hp) (by cases res <;> exact hfile)
  · obtain ⟨w, t', he, next, hu, hholds, hnode, howns⟩ := hd.staged.write h.wellFormed block
    rw [hd.file, he] at hs
    cases hs
    let u' : Upload := { u with writer := w, written := u.written + block.length }
    have hd' : (d.wrote (.upload u') block (.ok ())).UnderWay t.serial
        { j.store with tree := t' } u' p x i k :=
      { hd with
        file := rfl
        staged := hu
        holds := by simpa [Draft.wrote] using hholds _ hd.holds }
    have hplaces := stagings_underWay hd' (h.steady.trans next.steady)
    have htags := h.tagged
    subst htags
    change Layout t j.store.tags ([d.wrote (.upload u') block (.ok ())] ++ ds)
      { store := { j.store with tree := t' }, completed := j.completed }
    refine h.act hd next ⟨fun r => ?_, fun r j c _ => howns r j c⟩ [_] (fun e he => ?_) ?_
      (fun r hr => ?_) h.visible
    · by_cases hr : r = p ++ [stagingLast x (j.store.tags i)]
      · refine .inr ⟨.inl hr, fun m c hm => ?_⟩
        obtain ⟨c', hc⟩ := hu.file
        rw [hr, hc.node] at hm
        exact (Node.file.inj (Option.some.inj hm)).1.symm
      · exact .inl (hnode r hr)
    · rw [List.mem_singleton.1 he]
      exact .inr ⟨_, p, x, i, k, hd'⟩
    · rw [hplaces]
      exact .refl _
    · rw [List.singleton_append, hplaces, List.mem_cons, not_or] at hr
      exact (Tree.shown_congr (hnode r hr.1)).trans (h.elsewhere hd hr.2 hr.1)

theorem commit {done : Except StorageError Unit} {j' : Journal Served}
    (hc : Storage.commit d j = (done, d', j')) (h : Layout t tags (d :: ds) j) :
    Layout t tags (d' :: ds) j' := by
  rcases hs : j.store.commit d.file with ⟨res, file, s⟩
  simp only [Storage.commit, hs] at hc
  cases hc
  rcases h.stands d List.mem_cons_self with ⟨hp, hd⟩ | ⟨u, p, x, i, k, hd⟩
  · obtain ⟨hfile, hstore⟩ := hd.commit (s := j.store)
    rw [hs] at hfile hstore
    cases hstore
    rw [Draft.entry_of_done hp, List.append_nil]
    exact (h.drop hp).add (Draft.path?_committed hp _ _) (by cases res <;> exact hfile)
  · obtain ⟨w, t', c, he, hclosed, next, hstored, hnode, howns⟩ := hd.staged.commit h.wellFormed
    rw [hstored _ hd.holds] at hnode
    rw [hd.file, he] at hs
    cases hs
    have htags := h.tagged
    subst htags
    have hexpected : ∀ r, t.expected (j.completed ++ [(u.target, d.blocks.flatten)]) r =
        if r = p ++ [x] then some (.file t.serial d.blocks.flatten.toArray)
        else t.expected j.completed r := by
      intro r
      rw [Tree.expected_concat, Tree.replaced_of_entry (hd.target h.steady)]
    let u' : Upload := { u with writer := w, committed := true }
    change Layout t j.store.tags ([d.committed (.upload u') (.ok ())] ++ ds)
      { store := { j.store with tree := t' }, completed := j.completed ++ d.entry (.ok ()) }
    rw [hd.entry]
    refine h.act hd next ⟨fun r => ?_, fun r j c hr => howns r j c ?_⟩ [_] (fun e he => ?_) ?_
      (fun r hr => ?_) (fun r hr => ?_)
    · rw [hnode]
      split
      · rename_i hr
        refine .inr ⟨.inr (hr ▸ hd.visible), fun m c hm => ?_⟩
        exact (Node.file.inj (Option.some.inj hm)).1.symm
      · split
        · exact .inr ⟨.inl ‹_›, fun m c hm => by cases hm⟩
        · exact .inl rfl
    · rintro rfl
      exact hr hd.visible
    · rw [List.mem_singleton.1 he]
      exact .inl ⟨rfl, rfl, hclosed⟩
    · rw [stagings_settled rfl]
      exact List.nil_sublist _
    · rw [List.singleton_append, stagings_settled rfl] at hr
      rw [Tree.shown, hnode, hexpected]
      split
      · simp [Node.shown, hd.made]
      · split
        · rename_i hq
          exact hq ▸ (h.hidden_underWay hd).symm
        · exact h.elsewhere hd hr ‹_›
    · rw [hexpected] at hr
      split at hr
      · rename_i hx
        exact hx ▸ hd.visible
      · exact h.visible r hr

theorem release (h : Layout t tags (d :: ds) j) :
    Layout t tags ds { j with store := (j.store.release d.file).2 } := by
  rcases h.stands d List.mem_cons_self with ⟨hp, hd⟩ | ⟨u, p, x, i, k, hd⟩
  · rw [hd.release]
    exact h.drop hp
  · obtain ⟨t', he, next, hnode, howns⟩ := hd.staged.release h.wellFormed
    have htags := h.tagged
    subst htags
    rw [hd.file, he]
    refine h.act hd next ⟨fun r => ?_, fun r j c _ => howns r j c⟩ [] nofun (List.nil_sublist _)
      (fun r hr => ?_) h.visible
    · rw [hnode]
      split
      · exact .inr ⟨.inl ‹_›, nofun⟩
      · exact .inl rfl
    · rw [Tree.shown, hnode]
      split
      · rename_i hq
        exact hq ▸ (h.hidden_underWay hd).symm
      · exact h.elsewhere hd hr ‹_›

theorem draw (h : Layout t tags ds j) {n : Nat} (hn : j.store.drawn ≤ n) :
    Layout t tags ds { j with store := { j.store with drawn := n } } :=
  { h with
    stands := fun d hd => by
      rcases h.stands d hd with hs | ⟨u, p, x, i, k, hu⟩
      · exact .inl hs
      · exact .inr ⟨u, p, x, i, k, { hu with drawn := Nat.lt_of_lt_of_le hu.drawn hn }⟩ }

theorem opened (h : Layout t tags ds j) {path : Bytes} {truncate : Bool} {w : Writer}
    {blocks : List Bytes} (o : j.store.Opened path p x)
    (m : j.store.Made truncate path (p ++ [stagingLast x (j.store.tags j.store.drawn)]) w t')
    (hv : Visible tags (p ++ [x])) (hblocks : blocks.flatten = j.store.base truncate path) :
    Layout t tags
      ({ file := .upload {
           target := path
           staging := Served.stagingName path (j.store.tags j.store.drawn)
           writer := w }
         path? := some path
         blocks := blocks } :: ds)
      { j with store := { j.store with tree := t', drawn := j.store.drawn + 1 } } := by
  have htags := h.tagged
  subst htags
  have hne : p ++ [stagingLast x (j.store.tags j.store.drawn)] ≠ [] := by simp
  have hd := Draft.underWay_opened o m h.wellFormed hv h.serial hblocks
  have next := o.next m h.wellFormed
  have hq := stagings_underWay hd (h.steady.trans next.steady) ds
  have hfree : ∀ q ∈ stagings t ds, q ≠ p ++ [stagingLast x (j.store.tags j.store.drawn)] := by
    rintro q hq rfl
    obtain ⟨_, _, u, p', x', i, k, hu, heq⟩ := h.of_mem_stagings hq
    obtain ⟨c, hc⟩ := hu.staged.file
    cases o.free.symm.trans (heq ▸ hc.node)
  exact {
    wellFormed := next.wellFormed
    steady := h.steady.trans next.steady
    serial := Nat.le_trans h.serial next.serial
    tagged := rfl
    root := h.root
    stands := fun v hm => by
      rcases List.mem_cons.1 hm with rfl | hm
      · exact .inr ⟨_, p, x, _, _, hd⟩
      · refine (h.stands v hm).frame next.steady (m.touches hne o.free h.wellFormed _)
          (Nat.le_succ _) fun u p' x' i k hu => ?_
        obtain ⟨c, hc⟩ := hu.staged.file
        exact Nat.ne_of_lt (h.wellFormed.serials _ k c hc.node)
    apart := by
      rw [hq]
      exact List.nodup_cons.2 ⟨fun hm => hfree _ hm rfl, h.apart⟩
    same := fun r hr => by
      rw [hq, List.mem_cons, not_or] at hr
      exact (Tree.shown_congr (m.node?_eq hne h.wellFormed hr.1)).trans (h.same r hr.2)
    visible := h.visible }

theorem answer (h : Layout t tags ds j) (tagging : Tagging tags) {name : Bytes} (h0 : 0 ∉ name)
    (d : Direction) : j.store.Answer name d (Server.openFile d name j.store) := by
  have ht : Tagging j.store.tags := h.tagged ▸ tagging
  exact Served.answer h.wellFormed (fun n hn => (h.root n hn).plain) (ht.plain _) (ht.flat _)
    (h.fresh tagging) h0 d

theorem kept (t : Tree) (tagging : Tagging tags) :
    Storage.Kept (fun _ : Journal Served => True) (fun name => 0 ∉ name ∧ Unhidden tags name)
      (Layout t tags) where
  perm := perm
  opened := by
    intro dir name ds j j' d ho _ hn h
    rw [Journal.openFile_journal] at ho
    have answer := h.answer tagging hn.1 dir
    generalize Server.openFile dir name j.store = opened at ho answer
    cases answer with
    | refused => cases ho
    | read =>
      cases ho
      exact h.add rfl trivial
    | @write path p x hr o =>
      have hpath : (Storage.resolve name j.store).toOption = some path.text := by
        simp [Storage.resolve, hr, Except.map, Except.mapError, Except.toOption]
      simp only [hpath] at ho
      cases ho
      have bare : j.store.base true path.text = [] := Served.base_eq_nil nofun
      exact h.opened o (.empty bare) (visible_target hr o hn.1 h.root hn.2) bare.symm
  refused := by
    intro dir name ds j j' e ho _ hn h
    rw [Journal.openFile_journal] at ho
    have answer := h.answer tagging hn.1 dir
    generalize Server.openFile dir name j.store = refused at ho answer
    cases answer with
    | refused _ le =>
      cases ho
      exact h.draw le
    | read | write => cases ho
  read := read
  write := write
  commit := commit
  release := release

end Layout
end Disk
end Tftp
