import Tftp.Proofs.Disk.Layout
import Tftp.Proofs.Disk.Running
import Tftp.Proofs.Server.Fitting

/-!
Uploads are atomic. At any time the tree of a server is the one it has found, with the completed
uploads in their places in the order in which they were completed, and with one staging file for
each transfer that writes; whatever else the peers begin leaves no trace.
-/

namespace Tftp
namespace Disk

def stagingOf (tree : Tree) (t : Transfer Handle) : Option Place :=
  t.phase.file?.bind fun file => file.upload?.bind fun u => tree.entryAt? u.staging

def hidden (tree : Tree) (table : TransferTable Handle) : List Place :=
  table.entries.filterMap (stagingOf tree ·.2)

/-- What a server has made of the tree it has found, with the paths of the completed uploads and
all of their bytes. -/
structure Atomic (tree : Tree) (completed : List (Bytes × Bytes)) (s : Server Served Handle) :
    Prop where
  /-- But for the staging files, there is what was there and what was completed. -/
  placed : ∀ p ∉ hidden tree s.table,
    s.store.tree.shown tree.serial p = tree.expected completed p
  staged : ∀ p ∈ hidden tree s.table, ¬ Visible s.store.tags p ∧ tree.expected completed p = none ∧
    ∃ k c, tree.serial ≤ k ∧ s.store.tree.node? p = some (.file k c)
  apart : (hidden tree s.table).Nodup
  /-- The transfers that write have staging files, and no other ones do. -/
  sessions : ∀ f ∈ s.table.entries, (stagingOf tree f.2).isSome ↔ f.2.direction = .write

/-- A directory that nobody but its server changes. Neither in it nor in a request there is a name
that a staging file could have. -/
structure Undisturbed (tree : Tree) (root : Bytes) (overwrite : Bool) (tags : Nat → Bytes)
    (served : Served) (events : List Server.Event) : Prop where
  opened : ∃ faults, Served.openAt tree root overwrite tags faults = .ok served
  lawful : tree.Lawful
  tagging : Tagging tags
  visible : ∀ p, tree.node? p ≠ none → Visible tags p
  plain : ∀ event ∈ events, Plain event
  unhidden : ∀ event ∈ events, event.Named (Unhidden tags)

def Served.journaled (s : Served) (limits : Limits) (capacity : Nat) (events : List Server.Event) :
    Server (Journal Served) (Draft Handle) :=
  ((Server.new { store := s } limits capacity).run events).1

theorem Served.map_journaled (s : Served) (limits : Limits) (capacity : Nat)
    (events : List Server.Event) :
    (s.journaled limits capacity events).map Draft.file Journal.store =
      s.after limits capacity events :=
  congrArg Prod.fst (Server.run_map Journal.image (Server.new { store := s } limits capacity)
    events).symm

def Fits : Direction → Draft Handle → Prop
  | .read, d => d.file.upload? = none
  | .write, d => d.path?.isSome

theorem openFile_read_upload {name : Bytes} {s s' : Served} {file : Handle}
    (h : Server.openFile .read name s = (.ok file, s')) : file.upload? = none := by
  simp only [Server.openFile, Storage.resolve, Storage.openRead] at h
  split at h
  · cases h
  · rename_i path _
    cases ho : s.openRead path with
    | error e => simp [ho, Except.mapError] at h
    | ok f =>
      obtain ⟨reader, size, rfl⟩ := Served.openRead_reader ho
      simp only [ho, Except.mapError, Prod.mk.injEq, Except.ok.injEq] at h
      rw [← h.1]
      rfl

theorem upload?_read {s : Served} {file : Handle} (h : file.upload? = none) (n : Nat) :
    (s.read n file).2.1.upload? = none := by
  cases file with
  | upload u => cases h
  | reader r size =>
    obtain ⟨_, r', hread⟩ := s.read_reader_eq n r size
    rw [hread]
    rfl

theorem upload?_write {s : Served} {file : Handle} (h : file.upload? = none) (block : Bytes) :
    (s.write block file).2.1.upload? = none := by
  cases file with
  | upload u => cases h
  | reader r size => rfl

theorem fitting : Storage.Fitting (Journal Served) Fits where
  opened := by
    intro dir name d j j' ho
    rw [Journal.openFile_journal] at ho
    rcases hs : Server.openFile dir name j.store with ⟨_ | file, s⟩
    · rw [hs] at ho
      cases ho
    · rw [hs] at ho
      cases ho
      cases dir with
      | read => exact openFile_read_upload hs
      | write =>
        cases hr : Storage.resolve name j.store with
        | error e =>
          simp only [Server.openFile, hr] at hs
          cases hs
        | ok path => rfl
  read := by
    intro dir n d d' j j' got hr h
    cases hr
    cases dir with
    | write => exact h
    | read => exact upload?_read h n
  write := by
    intro dir block d d' j j' done hw h
    cases hw
    cases dir with
    | write =>
      change (d.wrote _ block _).path?.isSome
      unfold Draft.wrote
      split <;> exact h
    | read =>
      change (d.wrote _ block _).file.upload? = none
      unfold Draft.wrote
      split <;> exact upload?_write h block

section

variable {tree : Tree} {tags : Nat → Bytes} {limit : Nat}
  {s : Server (Journal Served) (Draft Handle)}

theorem stagingOf_map {x : Transfer (Draft Handle)} (h : x.Fitted Fits) :
    stagingOf tree (x.map Draft.file) = x.phase.file?.bind (·.staging? tree) := by
  rw [stagingOf, Transfer.map_phase, Phase.file?_map]
  cases hp : x.phase.file? with
  | none => rfl
  | some d =>
    have hd := h d hp
    cases hx : x.direction with
    | read =>
      rw [hx] at hd
      have hu : d.file.upload? = none := hd
      simp [Draft.staging?, hu]
    | write =>
      rw [hx] at hd
      obtain ⟨path, hpath⟩ := Option.isSome_iff_exists.1 hd
      simp [Draft.staging?, hpath]

theorem hidden_map (h : s.Every (Transfer.Fitted Fits)) :
    hidden tree (s.map Draft.file Journal.store).table = stagings tree s.table.files := by
  unfold Server.Every at h
  simp only [hidden, stagings, TransferTable.files, Server.map_table, TransferTable.map_entries,
    List.filterMap_map]
  generalize s.table.entries = entries at h
  induction entries with
  | nil => rfl
  | cons f entries ih =>
    have ih := ih fun g hg => h g (List.mem_cons_of_mem f hg)
    have hf : stagingOf tree (f.2.map Draft.file) = f.2.phase.file?.bind (·.staging? tree) :=
      stagingOf_map (h f List.mem_cons_self)
    rw [List.flatMap_cons, List.filterMap_append, ← ih, List.filterMap_cons]
    simp only [Function.comp_apply, Prod.map_snd, hf, Transfer.files]
    cases f.2.phase.file? with
    | none => rfl
    | some d => cases hd : d.staging? tree <;> simp [hd]

theorem atomic_of_sound (h : Server.Sound (Layout tree tags) limit [] s)
    (hf : s.Every (Transfer.Fitted Fits)) :
    Atomic tree s.store.completed (s.map Draft.file Journal.store) where
  placed p hp := h.kept.same p (hidden_map hf ▸ hp)
  staged p hp := by
    rw [hidden_map hf] at hp
    obtain ⟨hv, hfile⟩ := h.kept.staging_file hp
    rw [← h.kept.tagged] at hv
    exact ⟨hv, h.kept.hidden hp, hfile⟩
  apart := hidden_map hf ▸ h.kept.apart
  sessions f hm := by
    obtain ⟨g, hg, rfl⟩ := List.mem_map.1 hm
    change (stagingOf tree (g.2.map Draft.file)).isSome ↔ g.2.direction = .write
    obtain ⟨d, hp⟩ := (h.filed g hg).running.phase
    have hfile : Fits g.2.direction d := hf g hg d (by rw [hp]; rfl)
    have hd : d ∈ s.table.files :=
      List.mem_flatMap.2 ⟨g, hg, by rw [Transfer.files, hp]; exact List.mem_singleton_self d⟩
    rw [stagingOf_map (hf g hg), hp]
    change (d.staging? tree).isSome ↔ _
    cases hx : g.2.direction with
    | read =>
      rw [hx] at hfile
      have hu : d.file.upload? = none := hfile
      simp [Draft.staging?, hu]
    | write =>
      rw [hx] at hfile
      rcases h.kept.stands d hd with ⟨hnone, _⟩ | ⟨u, p, x, i, k, hu⟩
      · simp [Fits, hnone] at hfile
      · simp [hu.staging? h.kept.steady]

end

theorem Undisturbed.layout {tree : Tree} {root : Bytes} {overwrite : Bool} {tags : Nat → Bytes}
    {served : Served} {events : List Server.Event}
    (h : Undisturbed tree root overwrite tags served events) :
    Layout tree tags [] ({ store := served } : Journal Served) :=
  .of_openAt h.opened h.lawful h.visible

theorem completed_releaseAll (entries : List (Endpoint × Transfer (Draft Handle)))
    (j : Journal Served) : (Server.releaseAll entries j).2.completed = j.completed := by
  induction entries generalizing j with
  | nil => rfl
  | cons f entries ih =>
    have hf : (f.2.discard j).2.completed = j.completed := by
      unfold Transfer.discard
      split <;> rfl
    exact (ih _).trans hf

/-- Whatever happens to a server, each upload is in its place as a whole, or there is nothing but
its staging file. When the server is shut down there are no staging files either. -/
theorem upload_atomic {tree : Tree} {root : Bytes} {overwrite : Bool} {tags : Nat → Bytes}
    {served : Served} {events : List Server.Event}
    (h : Undisturbed tree root overwrite tags served events) (limits : Limits) (capacity : Nat) :
    let run := served.journaled limits capacity events
    run.map Draft.file Journal.store = served.after limits capacity events ∧
      Atomic tree run.store.completed (served.after limits capacity events) ∧
      ∀ p, (served.treeAfter limits capacity (events ++ [.shutdown])).shown tree.serial p =
        tree.expected run.store.completed p := by
  have kept := Layout.kept tree h.tagging
  have hnamed : ∀ event ∈ events, event.Named fun name => 0 ∉ name ∧ Unhidden tags name := by
    intro event he
    have hplain := named_of_plain (h.plain event he)
    have hunhidden := h.unhidden event he
    cases event with
    | datagram | packet => exact fun d r hp => ⟨hplain d r hp, hunhidden d r hp⟩
    | expiry | shutdown => trivial
  have hsound : Server.Sound (Layout tree tags) capacity []
      (served.journaled limits capacity events) :=
    (Server.Sound.new h.layout).run kept (fun _ _ => trivial) hnamed
  have hnew : (Server.new ({ store := served } : Journal Served) limits capacity).Every
      (Transfer.Fitted Fits) := fun _ hf => absurd hf List.not_mem_nil
  have hevery : (served.journaled limits capacity events).Every (Transfer.Fitted Fits) :=
    hnew.run (Transfer.lasting_fitted fitting) events
  have hshutdown : served.journaled limits capacity (events ++ [.shutdown]) =
      (served.journaled limits capacity events).shutdown.1 :=
    Server.run_append _ events [.shutdown]
  refine ⟨served.map_journaled limits capacity events, ?_, fun p => ?_⟩
  · rw [← served.map_journaled limits capacity events]
    exact atomic_of_sound hsound hevery
  · rw [Served.treeAfter, ← served.map_journaled, hshutdown]
    have hend := (hsound.shutdown kept).kept.same p List.not_mem_nil
    have hcompleted : (served.journaled limits capacity events).shutdown.1.store.completed =
        (served.journaled limits capacity events).store.completed := completed_releaseAll _ _
    rw [hcompleted] at hend
    exact hend

def servedOld : Served where
  tree := {
    entries := [([ascii "root"], .dir), ([ascii "root", ascii "old"], .file 0 #[65])]
    serial := 1 }
  root := [ascii "root"]
  tags := letterTags

def twoUploads : List Server.Event := [
  sending 4000 (.request .write ⟨ascii "old", octetMode, []⟩) 0,
  sending 4001 (.request .write ⟨ascii "new", octetMode, []⟩) 1,
  sending 4000 (.data 1 [66]) 2]

theorem undisturbed_twoUploads :
    Undisturbed servedOld.tree (ascii "/root") true letterTags servedOld twoUploads where
  opened := ⟨{}, rfl⟩
  lawful := Tree.lawful_of_orderly (by decide +kernel)
  tagging := tagging_letterTags
  visible := visible_of_entries (by decide)
  plain := by simp [twoUploads, sending, Plain]
  unhidden := by
    have hrequest : ∀ (name : Bytes) (now : Time) (port : UInt16),
        Packet.decode (Packet.request .write ⟨name, octetMode, []⟩).bytes =
          .ok (.request .write ⟨name, octetMode, []⟩) → (Bytes.parts slash name).all undotted →
        (sending port (.request .write ⟨name, octetMode, []⟩) now).Named (Unhidden letterTags) := by
      intro name now port hd hall d r hr part hp x i
      cases hd.symm.trans hr
      exact ne_stagingLast_of_undotted (List.all_eq_true.1 hall part hp) x _
    intro event he
    simp only [twoUploads, List.mem_cons, List.not_mem_nil, or_false] at he
    rcases he with rfl | rfl | rfl
    · exact hrequest _ _ _ (by decide +kernel) (by decide)
    · exact hrequest _ _ _ (by decide +kernel) (by decide)
    · intro d r hr
      have hd : Packet.decode (Packet.data 1 [66]).bytes = .ok (.data 1 [66]) := by decide +kernel
      cases hd.symm.trans hr

theorem upload_atomic_twoUploads :
    Undisturbed servedOld.tree (ascii "/root") true letterTags servedOld twoUploads ∧
    (servedOld.journaled {} 16 twoUploads).store.completed = [(ascii "/root/old", [66])] ∧
    let run := servedOld.journaled {} 16 twoUploads
    run.map Draft.file Journal.store = servedOld.after {} 16 twoUploads ∧
      Atomic servedOld.tree run.store.completed (servedOld.after {} 16 twoUploads) ∧
      ∀ p, (servedOld.treeAfter {} 16 (twoUploads ++ [.shutdown])).shown servedOld.tree.serial p =
        servedOld.tree.expected run.store.completed p :=
  ⟨undisturbed_twoUploads, by decide +kernel, upload_atomic undisturbed_twoUploads {} 16⟩

end Disk
end Tftp
