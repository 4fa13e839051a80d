import Mathlib.Data.List.Perm.Basic
import Mathlib.Data.List.ReduceOption
import Tftp.Proofs.Disk.Layout

/-!
Upload handles in any hands. Any number of them may be open, to the same targets or to others, and
the calls on them come in any order: a handle touches nothing but its staging file until it is
committed, a commit puts all of its bytes in the target's place, and afterwards it touches nothing.
-/

namespace Tftp
namespace Disk

/-- A served directory with the upload handles that were opened on it, in the order of their
opening. A handle that was released is none any more. -/
structure Desk where
  journal : Journal Served
  drafts : List (Option (Draft Handle)) := []

namespace Desk

/-- An upload is opened, or something is done with the one that was opened after `i` others. -/
inductive Call
  | start (truncate : Bool) (path : Bytes)
  | write (i : Nat) (block : Bytes)
  | commit (i : Nat)
  | release (i : Nat)

def Call.handle? : Call → Option Nat
  | .start .. => none
  | .write i _ => some i
  | .commit i => some i
  | .release i => some i

def store (k : Desk) : Served := k.journal.store

def tree (k : Desk) : Tree := k.store.tree

def start (k : Desk) (truncate : Bool) (path : Bytes) : Desk :=
  match k.store.openWrite truncate path with
  | (.error _, s) => { k with journal := { k.journal with store := s } }
  | (.ok file, s) =>
    { journal := { k.journal with store := s }
      drafts := k.drafts ++
        [some { file := file, path? := some path, blocks := [k.store.base truncate path] }] }

def on (k : Desk) (i : Nat)
    (f : Draft Handle → Journal Served → Option (Draft Handle) × Journal Served) : Desk :=
  match k.drafts[i]? with
  | some (some d) => { journal := (f d k.journal).2, drafts := k.drafts.set i (f d k.journal).1 }
  | _ => k

def step (k : Desk) : Call → Desk
  | .start truncate path => k.start truncate path
  | .write i block => k.on i fun d j =>
    let (_, d, j) := Storage.write block d j
    (some d, j)
  | .commit i => k.on i fun d j =>
    let (_, d, j) := Storage.commit d j
    (some d, j)
  | .release i => k.on i fun d j => (none, (Storage.release d j).2)

def run (k : Desk) (calls : List Call) : Desk := calls.foldl step k

def alive (k : Desk) : List (Draft Handle) := k.drafts.reduceOption

def hidden (k : Desk) (t : Tree) : List Place := stagings t k.alive

/-- What is asked of a call. A target has no name that a staging file could have, and none that
would be cut in it, and a look at it does not fail. -/
def Call.Fair (s : Served) : Call → Prop
  | .start _ path => 0 ∉ path ∧ (∀ e, s.tree.status path ≠ .unknown e) ∧
    ∀ x i, lastName? path ≠ some (stagingLast x (s.tags i))
  | _ => True

def Fair (k : Desk) : List Call → Prop
  | [] => True
  | call :: calls => call.Fair k.store ∧ (k.step call).Fair calls

variable {t tree : Tree} {k k' : Desk} {d : Draft Handle} {i : Nat} {call : Call}
  {path : Bytes} {truncate : Bool}

inductive Deed (t : Tree) (k : Desk) : Call → Desk → Prop
  | absent {call : Call} {i : Nat} (handle : call.handle? = some i)
    (gone : ∀ d, k.drafts[i]? ≠ some (some d)) : Deed t k call k
  | refused {truncate : Bool} {path : Bytes} {e : Error} {drawn : Nat}
    (answer : k.store.openWrite truncate path = (.error e, { k.store with drawn := drawn })) :
    Deed t k (.start truncate path)
      { k with journal := { k.journal with store := { k.store with drawn := drawn } } }
  | opened {truncate : Bool} {path : Bytes} {file : Handle} {tree : Tree} {p q : Place}
    (answer : k.store.openWrite truncate path =
      (.ok file, { k.store with tree := tree, drawn := k.store.drawn + 1 }))
    (target : t.entryAt? path = some p) (staging : Draft.staging?
      { file := file, path? := some path, blocks := [k.store.base truncate path] } t = some q)
    (free : k.tree.node? q = none) (staged : ∃ m c, tree.node? q = some (.file m c))
    (same : ∀ r, r ≠ q → tree.node? r = k.tree.node? r) :
    Deed t k (.start truncate path) {
      journal := { k.journal with
        store := { k.store with tree := tree, drawn := k.store.drawn + 1 } }
      drafts := k.drafts ++
        [some { file := file, path? := some path, blocks := [k.store.base truncate path] }] }
  | wrote {i : Nat} {block : Bytes} {d : Draft Handle} {file : Handle} {tree : Tree} {q : Place}
    (handle : k.drafts[i]? = some (some d)) (early : d.path? ≠ none)
    (staging : d.staging? t = some q)
    (answer : k.store.write block d.file = (.ok (), file, { k.store with tree := tree }))
    (same : ∀ r, r ≠ q → tree.node? r = k.tree.node? r) :
    Deed t k (.write i block) {
      journal := { k.journal with store := { k.store with tree := tree } }
      drafts := k.drafts.set i (some { d with file := file, blocks := d.blocks ++ [block] }) }
  | committed {i : Nat} {d : Draft Handle} {file : Handle} {tree : Tree} {path : Bytes}
    {p q : Place} {m : Nat} (handle : k.drafts[i]? = some (some d)) (early : d.path? = some path)
    (target : t.entryAt? path = some p) (staging : d.staging? t = some q)
    (answer : k.store.commit d.file = (.ok (), file, { k.store with tree := tree }))
    (placed : tree.status path = .found p (.file m d.blocks.flatten.toArray))
    (gone : tree.node? q = none)
    (same : ∀ r, r ≠ p → r ≠ q → tree.node? r = k.tree.node? r) :
    Deed t k (.commit i) {
      journal := {
        store := { k.store with tree := tree }
        completed := k.journal.completed ++ [(path, d.blocks.flatten)] }
      drafts := k.drafts.set i (some { d with file := file, path? := none }) }
  | released {i : Nat} {d : Draft Handle} {tree : Tree} {q : Place}
    (handle : k.drafts[i]? = some (some d)) (early : d.path? ≠ none)
    (staging : d.staging? t = some q)
    (answer : k.store.release d.file = ([], { k.store with tree := tree }))
    (gone : tree.node? q = none) (same : ∀ r, r ≠ q → tree.node? r = k.tree.node? r) :
    Deed t k (.release i) {
      journal := { k.journal with store := { k.store with tree := tree } }
      drafts := k.drafts.set i none }
  | finished {call : Call} {i : Nat} {d : Draft Handle} {d? : Option (Draft Handle)}
    (handle : call.handle? = some i) (late : k.drafts[i]? = some (some d)) (done : d.path? = none)
    (still : ∀ d' ∈ d?, d'.path? = none) :
    Deed t k call { k with drafts := k.drafts.set i d? }

/-! One call -/

theorem on_of_handle (h : k.drafts[i]? = some (some d))
    (f : Draft Handle → Journal Served → Option (Draft Handle) × Journal Served) :
    k.on i f = { journal := (f d k.journal).2, drafts := k.drafts.set i (f d k.journal).1 } := by
  rw [on, h]

theorem on_of_absent (h : ∀ d, k.drafts[i]? ≠ some (some d))
    (f : Draft Handle → Journal Served → Option (Draft Handle) × Journal Served) :
    k.on i f = k := by
  unfold on
  split
  · exact absurd ‹_› (h _)
  · rfl

theorem alive_perm (h : k.drafts[i]? = some (some d)) :
    k.alive.Perm (d :: (k.drafts.eraseIdx i).reduceOption) := by
  obtain ⟨hi, hd⟩ := List.getElem?_eq_some_iff.1 h
  have hperm := (List.getElem_cons_eraseIdx_perm hi).symm.filterMap id
  rw [hd] at hperm
  exact hperm

theorem set_perm (h : k.drafts[i]? = some (some d)) (d? : Option (Draft Handle)) :
    (k.drafts.set i d?).reduceOption.Perm (d?.toList ++ (k.drafts.eraseIdx i).reduceOption) := by
  obtain ⟨hi, _⟩ := List.getElem?_eq_some_iff.1 h
  have hperm := (List.set_perm_cons_eraseIdx hi d?).filterMap id
  cases d? <;> exact hperm

theorem concat_perm (k : Desk) (d : Draft Handle) :
    (k.drafts ++ [some d]).reduceOption.Perm (d :: k.alive) := by
  rw [List.reduceOption_append]
  exact List.perm_append_comm

theorem start_refused {e : Error} {s : Served}
    (h : k.store.openWrite truncate path = (.error e, s)) :
    k.start truncate path = { k with journal := { k.journal with store := s } } := by
  rw [start, h]

theorem start_opened {file : Handle} {s : Served}
    (h : k.store.openWrite truncate path = (.ok file, s)) :
    k.start truncate path = {
      journal := { k.journal with store := s }
      drafts := k.drafts ++
        [some { file := file, path? := some path, blocks := [k.store.base truncate path] }] } := by
  rw [start, h]

theorem openWrite_flat {s : Served} (truncate : Bool) (h : slash ∉ path) :
    ∃ e, s.openWrite truncate path = (.error e, s) := by
  have hparent : parent path = [] := by
    have hfront : path.reverse.dropWhile (· != slash) = [] :=
      List.dropWhile_eq_nil_iff.2 fun b hb => by
        simpa using ne_of_mem_of_not_mem (List.mem_reverse.1 hb) h
    simp [parent, hfront]
  have hdir : s.tree.isDirectory [] = false := rfl
  unfold Served.openWrite
  split
  · exact ⟨_, rfl⟩
  · rw [hparent, hdir]
    exact ⟨_, rfl⟩

variable {tags : Nat → Bytes}

structure Turn (t : Tree) (tags : Nat → Bytes) (k : Desk) (call : Call) (k' : Desk) : Prop where
  deed : Deed t k call k'
  layout : Layout t tags k'.alive k'.journal

theorem turn_start (h : Layout t tags k.alive k.journal) (tagging : Tagging tags)
    (fair : (Call.start truncate path).Fair k.store) :
    Turn t tags k (.start truncate path) (k.start truncate path) := by
  obtain ⟨h0, hstatus, hlast⟩ := fair
  have htags := h.tagged
  subst htags
  have refused : ∀ e drawn, k.store.drawn ≤ drawn →
      k.store.openWrite truncate path = (.error e, { k.store with drawn := drawn }) →
      Turn t k.store.tags k (.start truncate path) (k.start truncate path) := by
    intro e drawn hle answer
    rw [start_refused answer]
    exact ⟨.refused answer, h.draw hle⟩
  by_cases hs : slash ∈ path
  · rcases Served.openWrite_cases truncate h.wellFormed h0 hs hstatus (tagging.plain _)
        (tagging.flat _) ((h.fresh tagging).vacant path) with
      ⟨e, drawn, hle, answer⟩ | ⟨p, x, w, tree, o, made, answer⟩
    · exact refused e drawn hle answer
    · have hne : p ++ [stagingLast x (k.store.tags k.store.drawn)] ≠ [] := by simp
      obtain ⟨c, hc⟩ := (o.upload made h.wellFormed).file
      have hv : Visible k.store.tags (p ++ [x]) := by
        intro y i hy
        rw [List.getLast?_concat] at hy
        exact hlast y i ((Tree.lastName?_of_findEntry o.entry).trans hy)
      rw [start_opened answer]
      have hu := Draft.underWay_opened o made h.wellFormed hv h.serial List.flatten_singleton
      refine ⟨.opened answer (Tree.entryAt?_of_find (h.steady.findEntry_back o.entry))
        (hu.staging? (h.steady.trans (o.next made h.wellFormed).steady)) o.free
        ⟨_, c, hc.node⟩ fun r hr => made.node?_eq hne h.wellFormed hr, ?_⟩
      exact (h.opened o made hv List.flatten_singleton).perm (concat_perm k _).symm
  · obtain ⟨e, answer⟩ := openWrite_flat (s := k.store) truncate hs
    exact refused e _ (Nat.le_refl _) answer

theorem step_absent (hcall : call.handle? = some i) (gone : ∀ d, k.drafts[i]? ≠ some (some d)) :
    k.step call = k := by
  cases call with
  | start => cases hcall
  | write | commit | release =>
    cases hcall
    rw [step, on_of_absent gone]

section

variable (h : Layout t tags k.alive k.journal) (handle : k.drafts[i]? = some (some d))

include h handle

theorem turn_write (block : Bytes) :
    Turn t tags k (.write i block) (k.step (.write i block)) := by
  have hd := h.perm (alive_perm handle)
  rw [step, on_of_handle handle]
  rcases hw : Storage.write block d k.journal with ⟨res, d', j⟩
  refine ⟨?_, (hd.write hw).perm (set_perm handle (some d')).symm⟩
  simp only [Storage.write] at hw
  rcases hd.stands d List.mem_cons_self with ⟨done, settled⟩ | ⟨u, p, x, n, m, hu⟩
  · have hstore := (settled.write (s := k.journal.store) block).2
    cases hw
    rw [hstore]
    refine .finished rfl handle done fun d' hd' => ?_
    cases hd'
    exact (Draft.path?_wrote _ _ _ _).trans done
  · obtain ⟨w, tree, answer, _, _, _, hnode, _⟩ := hu.staged.write h.wellFormed block
    rw [hu.file, answer] at hw
    cases hw
    rw [← hu.file] at answer
    exact .wrote handle (by simp [hu.path]) (hu.staging? h.steady) answer hnode

theorem turn_commit : Turn t tags k (.commit i) (k.step (.commit i)) := by
  have hd := h.perm (alive_perm handle)
  rw [step, on_of_handle handle]
  rcases hc : Storage.commit d k.journal with ⟨res, d', j⟩
  refine ⟨?_, (hd.commit hc).perm (set_perm handle (some d')).symm⟩
  simp only [Storage.commit] at hc
  rcases hd.stands d List.mem_cons_self with ⟨done, settled⟩ | ⟨u, p, x, n, m, hu⟩
  · have hstore := (settled.commit (s := k.journal.store)).2
    cases hc
    rw [hstore, Draft.entry_of_done done, List.append_nil]
    refine .finished rfl handle done fun d' hd' => ?_
    cases hd'
    exact Draft.path?_committed done _ _
  · obtain ⟨w, tree, c, answer, _, next, hstored, hnode, _⟩ := hu.staged.commit h.wellFormed
    rw [hstored _ hu.holds] at hnode
    rw [hu.file, answer] at hc
    have hplaced := (hnode (p ++ [x])).trans (if_pos rfl)
    have hne := Ne.symm hu.staged.place_ne
    have hfind : tree.find true u.target = .ok (p ++ [x]) :=
      Tree.find_of_findEntry (next.steady.findEntry hu.staged.target) hu.staged.short
        fun target => by simp [hplaced]
    cases hc
    rw [← hu.file] at answer
    change Deed t k (.commit i)
      { journal := ⟨_, k.journal.completed ++ d.entry (.ok ())⟩, drafts := _ }
    rw [hu.entry]
    exact .committed handle hu.path (hu.target h.steady) (hu.staging? h.steady) answer
      (Tree.status_eq_found_iff.2 ⟨hfind, hplaced⟩)
      ((hnode _).trans ((if_neg hne).trans (if_pos rfl)))
      fun r hx hy => by rw [hnode, if_neg hx, if_neg hy]; rfl

theorem turn_release : Turn t tags k (.release i) (k.step (.release i)) := by
  have hd := h.perm (alive_perm handle)
  rw [step, on_of_handle handle]
  refine ⟨?_, hd.release.perm (set_perm handle none).symm⟩
  rcases hd.stands d List.mem_cons_self with ⟨done, settled⟩ | ⟨u, p, x, n, m, hu⟩
  · have hstore := settled.release (s := k.journal.store)
    simp only [Storage.release]
    rw [hstore]
    exact .finished rfl handle done nofun
  · obtain ⟨tree, answer, _, hnode, _⟩ := hu.staged.release h.wellFormed
    rw [← hu.file] at answer
    simp only [Storage.release]
    rw [answer]
    exact .released handle (by simp [hu.path]) (hu.staging? h.steady) answer
      ((hnode _).trans (if_pos rfl)) fun r hr => (hnode r).trans (if_neg hr)

end

theorem turn_step (h : Layout t tags k.alive k.journal) (tagging : Tagging tags) (call : Call)
    (fair : call.Fair k.store) : Turn t tags k call (k.step call) := by
  have of_handle : ∀ i, call.handle? = some i →
      (∀ d, k.drafts[i]? = some (some d) → Turn t tags k call (k.step call)) →
        Turn t tags k call (k.step call) := by
    intro i hcall there
    by_cases handle : ∃ d, k.drafts[i]? = some (some d)
    · exact handle.elim there
    · have gone := not_exists.1 handle
      rw [step_absent hcall gone]
      exact ⟨.absent hcall gone, h⟩
  cases call with
  | start => exact turn_start h tagging fair
  | write i block => exact of_handle i rfl fun d handle => turn_write h handle block
  | commit i => exact of_handle i rfl fun d handle => turn_commit h handle
  | release i => exact of_handle i rfl fun d handle => turn_release h handle

/-! All calls -/

def new (s : Served) : Desk := { journal := { store := s } }

theorem run_concat (k : Desk) (calls : List Call) (call : Call) :
    k.run (calls ++ [call]) = (k.run calls).step call := by
  simp [run]

theorem fair_concat {calls : List Call} :
    k.Fair (calls ++ [call]) ↔ k.Fair calls ∧ call.Fair (k.run calls).store := by
  induction calls generalizing k with
  | nil => exact and_comm
  | cons c calls ih => exact (and_congr_right fun _ => ih).trans and_assoc.symm

def Call.block? (i : Nat) : Call → Option Bytes
  | .write j block => if j = i then some block else none
  | _ => none

theorem block?_of_ne {j : Nat} (hcall : call.handle? = some j) (hne : j ≠ i) :
    call.block? i = none := by
  cases call with
  | start => rfl
  | write j' block =>
    cases hcall
    exact if_neg hne
  | commit | release => rfl

theorem Deed.origin (deed : Deed t k call k') (h : k'.drafts[i]? = some (some d))
    (early : d.path? = some path) :
    (∃ d', k.drafts[i]? = some (some d') ∧ d'.path? = some path ∧
      d.blocks = d'.blocks ++ (call.block? i).toList) ∨
    i = k.drafts.length ∧ ∃ truncate, call = .start truncate path ∧
      d.blocks = [k.store.base truncate path] := by
  -- a call on another handle
  have other : ∀ {j : Nat} {d? : Option (Draft Handle)}, j ≠ i → call.handle? = some j →
      (k.drafts.set j d?)[i]? = some (some d) → ∃ d', k.drafts[i]? = some (some d') ∧
        d'.path? = some path ∧ d.blocks = d'.blocks ++ (call.block? i).toList := by
    intro j d? hne hcall hd
    rw [List.getElem?_set_ne hne] at hd
    exact ⟨d, hd, early, by simp [block?_of_ne hcall hne]⟩
  -- the handle itself
  have own : ∀ {e : Draft Handle} {d? : Option (Draft Handle)}, k.drafts[i]? = some (some e) →
      (k.drafts.set i d?)[i]? = some (some d) → d? = some d := by
    intro e d? he hd
    rw [List.getElem?_set_self (List.getElem?_eq_some_iff.1 he).1] at hd
    exact Option.some.inj hd
  cases deed with
  | @absent _ j hcall gone =>
    have hne : j ≠ i := by
      rintro rfl
      exact gone d h
    exact .inl ⟨d, h, early, by simp [block?_of_ne hcall hne]⟩
  | refused => exact .inl ⟨d, h, early, by simp [Call.block?]⟩
  | @opened truncate path' file =>
    rw [List.getElem?_append] at h
    split at h
    · exact .inl ⟨d, h, early, by simp [Call.block?]⟩
    · rename_i hi
      obtain ⟨hlast, hd⟩ := List.getElem?_eq_some_iff.1 h
      have hlength : i = k.drafts.length := by
        simp at hlast
        omega
      simp only [List.getElem_singleton] at hd
      cases hd
      cases early
      exact .inr ⟨hlength, truncate, rfl, rfl⟩
  | @wrote j block e _ _ _ handle early' =>
    by_cases hj : j = i
    · subst hj
      cases own handle h
      exact .inl ⟨e, handle, early, by simp [Call.block?]⟩
    · exact .inl (other hj rfl h)
  | @committed j _ _ _ _ _ _ _ handle =>
    by_cases hj : j = i
    · subst hj
      cases own handle h
      cases early
    · exact .inl (other hj rfl h)
  | @released j _ _ _ handle =>
    by_cases hj : j = i
    · subst hj
      cases own handle h
    · exact .inl (other hj rfl h)
  | @finished _ j _ d? hcall late done still =>
    by_cases hj : j = i
    · subst hj
      cases early.symm.trans (still d (own late h))
    · exact .inl (other hj hcall h)

/-- What the calls tell of a handle that is not committed. It was opened for a path by one of them,
and it has taken what it started with there and the blocks of the calls after that one, in order. -/
def Told (s : Served) (calls : List Call) (i : Nat) (path : Bytes) (blocks : List Bytes) : Prop :=
  ∃ before truncate after, calls = before ++ .start truncate path :: after ∧
    i = ((new s).run before).drafts.length ∧
    blocks = ((new s).run before).store.base truncate path :: after.filterMap (Call.block? i)

theorem Told.concat {s : Served} {calls : List Call} {blocks : List Bytes}
    (h : Told s calls i path blocks) (call : Call) :
    Told s (calls ++ [call]) i path (blocks ++ (call.block? i).toList) := by
  obtain ⟨before, truncate, after, rfl, hi, rfl⟩ := h
  refine ⟨before, truncate, after ++ [call], by simp, hi, ?_⟩
  rw [List.filterMap_append, List.cons_append]
  cases hb : call.block? i <;> simp [hb]

structure Placed (t : Tree) (k : Desk) : Prop where
  /-- But for the staging files, a place holds all that was committed there last, or what it held
  at first. -/
  held : ∀ p ∉ k.hidden t, k.tree.shown t.serial p =
    match t.last? k.journal.completed p with
    | some bytes => some (.file t.serial bytes.toArray)
    | none => t.node? p
  staged : ∀ p ∈ k.hidden t, t.expected k.journal.completed p = none ∧
    ∃ m c, t.serial ≤ m ∧ k.tree.node? p = some (.file m c)
  apart : (k.hidden t).Nodup
  /-- The handles that are not committed have staging files, and no other ones do. -/
  early : ∀ d ∈ k.alive, (d.staging? t).isSome ↔ d.path?.isSome

theorem placed_of_layout (h : Layout t tags k.alive k.journal) : Placed t k where
  held p hp := (h.same p hp).trans (t.expected_eq _ p)
  staged p hp := ⟨h.hidden hp, (h.staging_file hp).2⟩
  apart := h.apart
  early d hd := by
    rcases h.stands d hd with ⟨done, _⟩ | ⟨u, p, x, i, m, hu⟩
    · simp [Draft.staging?, done]
    · simp [hu.staging? h.steady, hu.path]

/-- A directory that is changed through handles only. In it there is no name that a staging file
could have. -/
structure Calm (tree : Tree) (root : Bytes) (overwrite : Bool) (tags : Nat → Bytes)
    (served : Served) : Prop where
  opened : ∃ faults, Served.openAt tree root overwrite tags faults = .ok served
  lawful : tree.Lawful
  tagging : Tagging tags
  visible : ∀ p, tree.node? p ≠ none → Visible tags p

variable {root : Bytes} {overwrite : Bool} {served : Served} {calls : List Call}

theorem layout_run (h : Calm t root overwrite tags served) (fair : (new served).Fair calls) :
    Layout t tags ((new served).run calls).alive ((new served).run calls).journal := by
  induction calls using List.reverseRecOn with
  | nil => exact .of_openAt h.opened h.lawful h.visible
  | append_singleton calls call ih =>
    obtain ⟨hfair, hcall⟩ := fair_concat.1 fair
    rw [run_concat]
    exact (turn_step (ih hfair) h.tagging call hcall).layout

theorem told_run (h : Calm t root overwrite tags served) (fair : (new served).Fair calls)
    (handle : ((new served).run calls).drafts[i]? = some (some d)) (early : d.path? = some path) :
    Told served calls i path d.blocks := by
  induction calls using List.reverseRecOn generalizing d with
  | nil => cases handle
  | append_singleton calls call ih =>
    obtain ⟨hfair, hcall⟩ := fair_concat.1 fair
    rw [run_concat] at handle
    rcases (turn_step (layout_run h hfair) h.tagging call hcall).deed.origin handle early with
      ⟨e, he, hpath, hblocks⟩ | ⟨hi, truncate, rfl, hblocks⟩
    · rw [hblocks]
      exact (ih hfair he hpath).concat call
    · exact ⟨calls, truncate, [], rfl, hi, hblocks⟩

/-- Whatever is done with any number of handles, each place holds what it held at first or all that
was committed there last. Until it is committed a handle has to do with its staging file only; its
commit puts what it started with and all of its blocks in the target's place; afterwards no call on
it changes anything. -/
theorem handles_atomic (h : Calm tree root overwrite tags served)
    (fair : (new served).Fair calls) :
    let k := (new served).run calls
    Placed tree k ∧
      (∀ i d path, k.drafts[i]? = some (some d) → d.path? = some path →
        Told served calls i path d.blocks) ∧
      ∀ call, call.Fair k.store → Deed tree k call (k.step call) := by
  have hlayout := layout_run h fair
  exact ⟨placed_of_layout hlayout, fun i d path => told_run h fair,
    fun call hcall => (turn_step hlayout h.tagging call hcall).deed⟩

/-! Three handles to a file, one of them through a link -/

def Call.fairly (s : Served) : Call → Bool
  | .start _ path => !path.contains 0 && (lastName? path).all undotted &&
    match s.tree.status path with
    | .unknown _ => false
    | _ => true
  | _ => true

def fairly (k : Desk) : List Call → Bool
  | [] => true
  | call :: calls => call.fairly k.store && (k.step call).fairly calls

theorem Call.fair_of_fairly {s : Served} (h : call.fairly s) : call.Fair s := by
  cases call with
  | start truncate path =>
    simp only [fairly, Bool.and_eq_true, Bool.not_eq_true', List.contains_eq_mem,
      decide_eq_false_iff_not] at h
    obtain ⟨⟨h0, hlast⟩, hstatus⟩ := h
    refine ⟨h0, fun e he => by simp [he] at hstatus, fun x i hx => ?_⟩
    rw [hx] at hlast
    exact ne_stagingLast_of_undotted hlast x (s.tags i) rfl
  | write | commit | release => trivial

theorem fair_of_fairly (h : k.fairly calls) : k.Fair calls := by
  induction calls generalizing k with
  | nil => trivial
  | cons call calls ih =>
    obtain ⟨hcall, hcalls⟩ := (Bool.and_eq_true _ _).mp h
    exact ⟨Call.fair_of_fairly hcall, ih hcalls⟩

def servedLinked : Served where
  tree := {
    entries := [([ascii "root"], .dir), ([ascii "root", ascii "old"], .file 0 #[65]),
      ([ascii "root", ascii "link"], .link (ascii "old"))]
    serial := 1 }
  root := [ascii "root"]
  tags := letterTags

def threeHandles : List Call := [
  .start false (ascii "/root/old"),
  .start true (ascii "/root/old"),
  .start false (ascii "/root/link"),
  .write 0 [66], .write 1 [67], .commit 0,
  .write 2 [68], .commit 2,
  .commit 0, .write 0 [69], .release 1]

theorem calm_servedLinked :
    Calm servedLinked.tree (ascii "/root") true letterTags servedLinked where
  opened := ⟨{}, rfl⟩
  lawful := Tree.lawful_of_orderly (by decide +kernel)
  tagging := tagging_letterTags
  visible := visible_of_entries (by decide)

theorem handles_atomic_three_handles :
    let k := (new servedLinked).run threeHandles
    Calm servedLinked.tree (ascii "/root") true letterTags servedLinked ∧
    (new servedLinked).Fair threeHandles ∧
    k.journal.completed = [(ascii "/root/old", [65, 66]), (ascii "/root/link", [65, 68])] ∧
    Placed servedLinked.tree k ∧
    (∀ i d path, k.drafts[i]? = some (some d) → d.path? = some path →
      Told servedLinked threeHandles i path d.blocks) ∧
    ∀ call, call.Fair k.store → Deed servedLinked.tree k call (k.step call) := by
  have fair : (new servedLinked).Fair threeHandles := fair_of_fairly (by decide +kernel)
  exact ⟨calm_servedLinked, fair, by decide +kernel, handles_atomic calm_servedLinked fair⟩

end Desk

end Disk
end Tftp
