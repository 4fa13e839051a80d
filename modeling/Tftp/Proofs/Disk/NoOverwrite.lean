import Tftp.Proofs.Disk.Running
import Tftp.Proofs.Disk.Safe

/-!
A server that overwrites nothing checks that the target of an upload is free when the upload is
requested, and not when it is committed. So a file stays as it is under its name, except that an
upload that was open for the same name before the file was there takes its place.
-/

namespace Tftp
namespace Disk

variable {base : Nat} {tags : Nat → Bytes}

def watch (s : Server (Recorded Served) (Numbered Handle)) (p : Place) (k : Nat) (c : Content) :
    Watched where
  place := p
  serial := k
  content := c
  rival n := ∃ f ∈ s.table.files, f.number = n ∧ f.file.Contests s.store.store.tree p

section

variable {s : Server (Recorded Served) (Numbered Handle)} {p : Place} {k limit : Nat} {c : Content}
  (hv : Visible tags p) (hk : s.store.store.tree.node? p = some (.file k c))

include hv hk

theorem stands_watch (h : Safe base tags [] s.table.files s.store) :
    (watch s p k c).Stands base s.table.files s.store where
  visible := h.tags ▸ hv
  early := by
    rintro n ⟨f, hf, rfl, _⟩
    exact h.ledger.early f hf
  aims := by
    rintro f hf ⟨g, hg, hn, u, hu, _, ha⟩
    cases List.inj_on_of_nodup_map h.ledger.distinct hg hf hn
    exact ⟨u, hu, ha⟩
  filled := ⟨k, c, hk⟩
  outcome := by
    refine .inl ⟨?_, hk, fun f hf hc => ⟨f, hf, rfl, hc⟩⟩
    rintro n ⟨f, hf, rfl, u, hu, early, _⟩ hc
    cases early.symm.trans ((h.ledger.done f hf u hu).2 hc)

theorem stands_run (h : Server.Sound (Safe base tags []) limit [] s) {events : List Server.Event}
    (plain : ∀ event ∈ events, Plain event)
    (fresh : ∀ init, init <+: events → (s.run init).1.store.store.Fresh) :
    (watch s p k c).Stands base (s.run events).1.table.files (s.run events).1.store := by
  have hw : Server.Sound (Safe base tags [watch s p k c]) limit [] s :=
    { h with
      kept := { h.kept with
        stands := by
          intro w hm
          rw [List.mem_singleton.1 hm]
          exact stands_watch hv hk h.kept } }
  have hrun := hw.run (Safe.kept base tags _) fresh fun event he => named_of_plain (plain event he)
  exact hrun.kept.stands _ (List.mem_singleton_self _)

end

def Served.recorded (s : Served) (limits : Limits) (capacity : Nat)
    (events : List Server.Event) : Server (Recorded Served) (Numbered Handle) :=
  ((Server.new { store := s } limits capacity).run events).1

theorem Served.map_recorded (s : Served) (limits : Limits) (capacity : Nat)
    (events : List Server.Event) :
    (s.recorded limits capacity events).map Numbered.file Recorded.store =
      s.after limits capacity events :=
  congrArg Prod.fst (Server.run_map Recorded.image (Server.new { store := s } limits capacity)
    events).symm

theorem Served.store_recorded (s : Served) (limits : Limits) (capacity : Nat)
    (events : List Server.Event) :
    (s.recorded limits capacity events).store.store = (s.after limits capacity events).store :=
  congrArg Server.store (s.map_recorded limits capacity events)

/-- A directory that is served without the right to overwrite, and what happens to its server. The
next tag is always one that no name in the tree ends with. -/
structure NoOverwrite (tree : Tree) (root : Bytes) (tags : Nat → Bytes) (served : Served)
    (limits : Limits) (capacity : Nat) (events : List Server.Event) : Prop where
  opened : ∃ faults, Served.openAt tree root false tags faults = .ok served
  wellFormed : tree.WellFormed
  tagging : Tagging tags
  plain : ∀ event ∈ events, Plain event
  fresh : ∀ init, init <+: events → (served.after limits capacity init).store.Fresh

variable {tree : Tree} {root : Bytes} {served : Served} {limits : Limits} {capacity : Nat}

theorem safe_start (opened : ∃ faults, Served.openAt tree root false tags faults = .ok served)
    (wf : tree.WellFormed) (tagging : Tagging tags) :
    Safe tree.serial tags [] [] ({ store := served } : Recorded Served) := by
  obtain ⟨faults, opened⟩ := opened
  obtain ⟨place, hplace, rfl⟩ := Served.of_openAt opened
  exact {
    tags := rfl
    keeps := rfl
    guarded := {
      wellFormed := wf
      single := wf.single
      root := wf.names_of (by simp [hplace])
      tagging := tagging
      pending := nofun
      apart := List.nodup_nil }
    ledger := ⟨List.nodup_nil, nofun, nofun, nofun⟩
    stands := nofun }

theorem stands_after {es es' : List Server.Event}
    (h : NoOverwrite tree root tags served limits capacity (es ++ es')) {p : Place} {k : Nat}
    {c : Content} (hv : Visible tags p)
    (hk : (served.treeAfter limits capacity es).node? p = some (.file k c)) :
    (watch (served.recorded limits capacity es) p k c).Stands tree.serial
      (served.recorded limits capacity (es ++ es')).table.files
      (served.recorded limits capacity (es ++ es')).store := by
  have hfresh : ∀ init, init <+: es ++ es' →
      (served.recorded limits capacity init).store.store.Fresh := by
    intro init hi
    rw [Served.store_recorded]
    exact h.fresh init hi
  rw [Served.treeAfter, ← Served.store_recorded] at hk
  have hstart : Server.Sound (Safe tree.serial tags []) capacity []
      (served.recorded limits capacity es) :=
    (Server.Sound.new (safe_start h.opened h.wellFormed h.tagging)).run (Safe.kept _ _ [])
      (fun init hi => hfresh init (hi.trans (List.prefix_append _ _)))
      fun event he => named_of_plain (h.plain event (List.mem_append_left _ he))
  have happ : ∀ es', served.recorded limits capacity (es ++ es') =
      ((served.recorded limits capacity es).run es').1 := Server.run_append _ es
  rw [happ]
  exact stands_run hv hk hstart (fun event he => h.plain event (List.mem_append_right _ he))
    fun init hi => happ init ▸ hfresh _ ((List.prefix_append_right_inj es).2 hi)

theorem first_file_stays {events : List Server.Event}
    (h : NoOverwrite tree root tags served limits capacity events) {p : Place} {k : Nat}
    {c : Content} (hv : Visible tags p) (hk : served.tree.node? p = some (.file k c)) :
    (served.treeAfter limits capacity events).node? p = some (.file k c) := by
  have h : NoOverwrite tree root tags served limits capacity ([] ++ events) := h
  rw [Served.treeAfter, ← Served.store_recorded]
  exact (stands_after h hv hk).node?_eq_iff.2 fun n ⟨f, hf, _⟩ => nomatch hf

/-- Without the right to overwrite, a file that stands under a name is never removed and never
changed, whatever happens. But another one takes its place if, and only if, an upload is committed
that was open for the name when the file was there already. -/
theorem file_stays_iff {es es' : List Server.Event}
    (h : NoOverwrite tree root tags served limits capacity (es ++ es')) {p : Place} {k : Nat}
    {c : Content} (hv : Visible tags p)
    (hk : (served.treeAfter limits capacity es).node? p = some (.file k c)) :
    (∃ j d, (served.treeAfter limits capacity (es ++ es')).node? p = some (.file j d)) ∧
    ((served.treeAfter limits capacity (es ++ es')).node? p = some (.file k c) ↔
      ∀ f ∈ (served.recorded limits capacity es).table.files,
        f.file.Contests (served.treeAfter limits capacity es) p →
          ¬ (served.recorded limits capacity (es ++ es')).store.committed f.number) := by
  have hs := stands_after h hv hk
  simp only [Served.treeAfter, ← Served.store_recorded]
  refine ⟨hs.filled, hs.node?_eq_iff.trans ⟨fun h f hf hc => h _ ⟨f, hf, rfl, hc⟩, ?_⟩⟩
  rintro h n ⟨f, hf, rfl, hc⟩
  exact h f hf hc

def bareTree : Tree := { entries := [([ascii "root"], .dir)] }

theorem wellFormed_bareTree : bareTree.WellFormed := by
  have hnode : ∀ p n, bareTree.node? p = some n → (p = [] ∨ p = [ascii "root"]) ∧ n = .dir := by
    intro p n hp
    by_cases hnil : p = []
    · subst hnil
      cases hp
      exact ⟨.inl rfl, rfl⟩
    · rw [Tree.node?_of_ne_nil hnil, bareTree, Tree.lookup_cons_ite] at hp
      split at hp
      · cases hp
        exact ⟨.inr ‹_›, rfl⟩
      · cases hp
  have hlast : ∀ p n, bareTree.node? (p ++ [n]) ≠ none → p = [] ∧ n = ascii "root" := by
    intro p n hn
    obtain ⟨m, hm⟩ := Option.ne_none_iff_exists'.1 hn
    rcases (hnode _ m hm).1 with hp | hp
    · simp at hp
    · have happ : p ++ [n] = [] ++ [ascii "root"] := hp
      obtain ⟨hp, hn⟩ := List.append_inj' happ rfl
      exact ⟨hp, List.singleton_inj.1 hn⟩
  refine ⟨fun p n hn => ?_, fun p n hn => ?_, fun p k c hp => ?_⟩
  · rw [(hlast p n hn).1]
    rfl
  · rw [(hlast p n hn).2]
    decide
  · cases (hnode p _ hp).2

def bareServed : Served where
  tree := bareTree
  root := [ascii "root"]
  overwrite := false
  tags := letterTags

def firstUpload : List Server.Event :=
  let wrq : Packet := .request .write ⟨ascii "new", octetMode, []⟩
  [sending 4000 wrq 0, sending 4001 wrq 1, sending 4000 (.data 1 [65]) 2]

def secondUpload : List Server.Event := [sending 4001 (.data 1 [66]) 3]

def newPlace : Place := [ascii "root", ascii "new"]

theorem noOverwrite_race : NoOverwrite bareTree (ascii "/root") letterTags bareServed {} 16
    (firstUpload ++ secondUpload) where
  opened := ⟨{}, rfl⟩
  wellFormed := wellFormed_bareTree
  tagging := tagging_letterTags
  plain := by simp [firstUpload, secondUpload, sending, Plain]
  fresh init hi := by
    have hall : ∀ i < 5, (bareServed.after {} 16
        ((firstUpload ++ secondUpload).take i)).store.tagUsed = false := by
      decide +kernel
    rw [List.prefix_iff_eq_take.1 hi]
    exact fresh_of_tagUsed (hall init.length (Nat.lt_succ_of_le hi.length_le))

theorem visible_newPlace : Visible letterTags newPlace := visible_of_undotted (by decide)

theorem file_stays_iff_race :
    NoOverwrite bareTree (ascii "/root") letterTags bareServed {} 16
      (firstUpload ++ secondUpload) ∧
    Visible letterTags newPlace ∧
    (bareServed.treeAfter {} 16 firstUpload).node? newPlace = some (.file 0 #[65]) ∧
    (∃ j d, (bareServed.treeAfter {} 16 (firstUpload ++ secondUpload)).node? newPlace =
      some (.file j d)) ∧
    ((bareServed.treeAfter {} 16 (firstUpload ++ secondUpload)).node? newPlace =
        some (.file 0 #[65]) ↔
      ∀ f ∈ (bareServed.recorded {} 16 firstUpload).table.files,
        f.file.Contests (bareServed.treeAfter {} 16 firstUpload) newPlace →
          ¬ (bareServed.recorded {} 16 (firstUpload ++ secondUpload)).store.committed f.number) := by
  have hk : (bareServed.treeAfter {} 16 firstUpload).node? newPlace = some (.file 0 #[65]) := by
    decide +kernel
  exact ⟨noOverwrite_race, visible_newPlace, hk,
    file_stays_iff noOverwrite_race visible_newPlace hk⟩

/-- The content of a file that an upload has put under a name is not there for ever. -/
theorem not_content_stays : ¬ ∀ (tree : Tree) (root : Bytes) (tags : Nat → Bytes) (served : Served)
    (limits : Limits) (capacity : Nat) (es es' : List Server.Event) (p : Place) (k : Nat)
    (c : Content), NoOverwrite tree root tags served limits capacity (es ++ es') →
    Visible tags p → (served.treeAfter limits capacity es).node? p = some (.file k c) →
    ∃ j, (served.treeAfter limits capacity (es ++ es')).node? p = some (.file j c) := by
  intro h
  obtain ⟨j, hj⟩ := h bareTree (ascii "/root") letterTags bareServed {} 16 firstUpload
    secondUpload newPlace 0 #[65] noOverwrite_race visible_newPlace (by decide +kernel)
  have hk : (bareServed.treeAfter {} 16 (firstUpload ++ secondUpload)).node? newPlace =
      some (.file 1 #[66]) := by
    decide +kernel
  cases hk.symm.trans hj

end Disk
end Tftp
