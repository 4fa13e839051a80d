import Tftp.Proofs.Disk.NoOverwrite
import Tftp.Proofs.Disk.Quoting
import Tftp.Proofs.Disk.Tidy
import Tftp.Proofs.Server.Fitting
import Tftp.Proofs.Server.Lines
import Tftp.Proofs.Server.Untouched

namespace Tftp
namespace Disk

open Log

/-- What a server on a directory comes to, one event after the other. It is `sheltered` as long as
nobody else changes the files, the next tag is always one that no name in the tree ends with, and
no name that is asked for has a NUL. What the system refuses to readers may change at any time. -/
inductive Reached (start : Served) : Bool → Server Served Handle → Prop
  | start (limits : Limits) (capacity : Nat) :
    Reached start true (Server.new start limits capacity)
  | event {sheltered sheltered' : Bool} {s : Server Served Handle} {event : Server.Event}
      (before : Reached start sheltered s)
      (regular : sheltered' = true → sheltered = true ∧ Plain event ∧ s.store.Fresh) :
    Reached start sheltered' (s.step event).1
  | changed {sheltered : Bool} {s : Server Served Handle} (before : Reached start sheltered s)
      (tree : Tree) : Reached start false { s with store := { s.store with tree := tree } }
  | faulted {sheltered : Bool} {s : Server Served Handle} (before : Reached start sheltered s)
      (faults : Faults) :
    Reached start sheltered { s with store := { s.store with faults := faults } }

structure Serving (tree : Tree) (root : Bytes) (overwrite : Bool) (tags : Nat → Bytes)
    (start : Served) (sheltered : Bool) (s : Server Served Handle) : Prop where
  opened : ∃ faults, Served.openAt tree root overwrite tags faults = .ok start
  wellFormed : tree.WellFormed
  reached : Reached start sheltered s
  tagging : sheltered = true → Tagging tags
  fresh : sheltered = true → s.store.Fresh

/-- There is no line break in what the log can quote for a datagram of a peer. -/
structure Quotable (s : Server Served Handle) (peer : Endpoint) (datagram : Bytes) : Prop where
  store : s.store.Unbroken
  packet : ∀ p, Packet.decode datagram = .ok p → p.Clean
  session : ∀ t, s.table.find? peer = some t → 10 ∉ t.filename

structure Served.Same (start s : Served) : Prop where
  root : s.root = start.root
  tags : s.tags = start.tags

/-- An open file of a directory that is tidy as long as it is `sheltered`, with clean paths if they
are to be `clean`. -/
structure Within (base : Nat) (sheltered : Bool) (clean : Prop) (file : Handle) (s : Served) :
    Prop where
  tidy : sheltered = true → ∃ us, Tidy base (file.upload?.toList ++ us) s
  paths : clean → file.Clean

def Named (start : Served) (t : Transfer Handle) : Prop :=
  start.Unbroken → 10 ∉ t.filename → ∀ file ∈ t.files, file.Clean

variable {start s s' : Served} {name : Bytes} {file file' : Handle} {done sheltered : Bool}
  {sv : Server Served Handle} {peer : Endpoint}

namespace Served

theorem Same.unbroken_iff (h : start.Same s) : s.Unbroken ↔ start.Unbroken := by
  constructor
  · exact fun hs => ⟨h.root ▸ hs.root, h.tags ▸ hs.tags⟩
  · exact fun hs => ⟨h.root ▸ hs.root, h.tags ▸ hs.tags⟩

theorem Same.act (h : start.Same s) (a : s.Act done file file' s') : start.Same s' := by
  cases a <;> exact ⟨h.root, h.tags⟩

theorem Same.openWrite (h : start.Same s) (truncate : Bool) (path : Bytes) :
    start.Same (s.openWrite truncate path).2 := by
  unfold Served.openWrite
  split
  · exact h
  · split
    · exact h
    · exact ⟨h.root, h.tags⟩

theorem Same.openFile (h : start.Same s) (d : Direction) (name : Bytes) :
    start.Same (Server.openFile d name s).2 := by
  cases hr : s.resolve name with
  | error e =>
    rw [openFile_unresolved hr]
    exact h
  | ok p =>
    cases d with
    | read =>
      rw [openFile_read_ok hr]
      exact h
    | write =>
      rw [openFile_write_ok hr]
      exact h.openWrite true _

theorem kept_same (start : Served) : Storage.Kept (fun _ : Served => True) (fun _ => True)
    fun (_ : List Handle) s => start.Same s where
  perm _ h := h
  opened := by
    intro d name files s s' file ho _ _ h
    have hs := h.openFile d name
    rwa [ho] at hs
  refused := by
    intro d name files s s' e ho _ _ h
    have hs := h.openFile d name
    rwa [ho] at hs
  read hr h := h.act (act_of_read hr)
  write hw h := h.act (act_of_write hw)
  commit hc h := h.act (act_of_commit hc).choose_spec
  release := by
    intro file files s h
    cases file with
    | reader => exact h
    | upload u =>
      obtain ⟨t, t', _, _, hs⟩ := s.release_upload u
      change start.Same (s.release (.upload u)).2
      rw [hs]
      exact ⟨h.root, h.tags⟩

end Served

theorem lasting_named (start : Served) : Transfer.LastingIn start.Same (Named start) where
  new peer options limits ho hs := by
    intro hstart hname file hf
    cases List.mem_singleton.1 hf
    exact (Served.openFile_clean (hs.unbroken_iff.2 hstart) hname _).1 _ _ ho
  react {t} store event h := by
    intro hstart hname
    have hterms : (t.react store event).transfer.filename = t.filename :=
      congrArg Transfer.Terms.filename (Transfer.terms_react t store event)
    rw [hterms] at hname
    have hfiles : ∀ file ∈ t.files ++ [], file.Clean := by
      rw [List.append_nil]
      exact h hstart hname
    have hafter : ∀ file ∈ (t.react store event).transfer.files ++ [], file.Clean :=
      kept_clean.react event hfiles
    rwa [List.append_nil] at hafter

/-! A server that was reached -/

theorem Reached.sound (h : Reached start sheltered sv) :
    ∃ limit, Server.Sound (fun _ s => start.Same s) limit [] sv := by
  induction h with
  | start limits capacity => exact ⟨capacity, .new ⟨rfl, rfl⟩⟩
  | event _ _ ih =>
    obtain ⟨limit, ih⟩ := ih
    exact ⟨limit, ih.step (Served.kept_same start) trivial (Server.Event.named_trivial _)⟩
  | changed _ tree ih | faulted _ faults ih =>
    obtain ⟨limit, ih⟩ := ih
    exact ⟨limit, ih.store ⟨ih.kept.root, ih.kept.tags⟩⟩

theorem Reached.named (h : Reached start sheltered sv) : sv.Every (Named start) := by
  induction h with
  | start limits capacity =>
    intro t ht
    cases ht
  | event before _ ih =>
    obtain ⟨limit, hsound⟩ := before.sound
    exact ih.stepIn (lasting_named start) hsound.kept _
  | changed _ tree ih | faulted _ faults ih => exact ih

theorem Reached.tidy {base : Nat} (hstart : Tidy base [] start) (h : Reached start sheltered sv)
    (ha : sheltered = true) : ∃ limit, Server.Sound
      (fun (files : List Handle) s => Tidy base (files.flatMap (·.upload?.toList)) s)
      limit [] sv := by
  induction h with
  | start limits capacity => exact ⟨capacity, .new hstart⟩
  | event _ regular ih =>
    obtain ⟨hbefore, plain, fresh⟩ := regular ha
    obtain ⟨limit, ih⟩ := ih hbefore
    exact ⟨limit, ih.step (Tidy.kept base) fresh (named_of_plain plain)⟩
  | changed => cases ha
  | faulted _ faults ih =>
    obtain ⟨limit, ih⟩ := ih ha
    exact ⟨limit, ih.store (ih.kept.refusing faults)⟩

variable {tree : Tree} {root : Bytes} {overwrite : Bool} {tags : Nat → Bytes}

theorem Serving.tidy (h : Serving tree root overwrite tags start sheltered sv)
    (ha : sheltered = true) : ∃ limit, Server.Sound
      (fun (files : List Handle) s => Tidy tree.serial (files.flatMap (·.upload?.toList)) s)
      limit [] sv := by
  refine h.reached.tidy ?_ ha
  obtain ⟨faults, opened⟩ := h.opened
  obtain ⟨place, hplace, rfl⟩ := Served.of_openAt opened
  exact {
    guarded := {
      wellFormed := h.wellFormed
      single := h.wellFormed.single
      root := h.wellFormed.names_of (by simp [hplace])
      tagging := h.tagging ha
      pending := nofun
      apart := List.nodup_nil }
    lodged := nofun }

section

variable {base : Nat} {clean : Prop}

theorem Within.act (h : Within base sheltered clean file s) (a : s.Act done file file' s') :
    Within base sheltered clean file' s' where
  tidy ha := (h.tidy ha).imp fun _ ht => ht.act a
  paths hc := a.clean (h.paths hc)

theorem terse (base : Nat) (sheltered : Bool) (clean : Prop) :
    Storage.Terse Served (Within base sheltered clean) clean
      fun e => sheltered = false ∧ Leftover e where
  read {n file file' s s' got} hr h := by
    obtain ⟨r, hs, rfl⟩ := Served.storage_read hr
    refine ⟨h.act (Served.read_act hs), fun e he hclean => ?_⟩
    cases r with
    | ok => cases he
    | error e' =>
      cases he
      exact Error.message_clean (Served.read_quotes hs)
  write hw h := by
    obtain ⟨r, hs, rfl⟩ := Served.storage_write hw
    refine ⟨h.act (Served.write_act hs), fun e he hclean => ?_⟩
    cases r with
    | ok => cases he
    | error e' =>
      cases he
      exact Error.message_clean (Served.write_quotes (h.paths hclean) hs)
  commit hc h := by
    obtain ⟨r, hs, rfl⟩ := Served.storage_commit hc
    refine ⟨h.act (Served.commit_act hs), fun e he hclean => ?_⟩
    cases r with
    | ok => cases he
    | error e' =>
      cases he
      exact Error.message_clean (Served.commit_quotes (h.paths hclean) hs)
  release {file s} h e he := by
    obtain ⟨hleft, hclean⟩ := Served.release_leftover he
    refine ⟨⟨?_, hleft⟩, fun hc => hclean (h.paths hc)⟩
    rw [Bool.eq_false_iff]
    intro ha
    obtain ⟨us, ht⟩ := h.tidy ha
    have hnil := ht.release_log
    change e ∈ (s.release file).1 at he
    rw [hnil] at he
    cases he

end

theorem Serving.carries (h : Serving tree root overwrite tags start sheltered sv)
    {datagram : Bytes} {t : Transfer Handle} (ht : sv.table.find? peer = some t) :
    Server.Carries (Within tree.serial sheltered (Quotable sv peer datagram))
      (Quotable sv peer datagram) peer t sv.store := by
  obtain ⟨limit, hsound⟩ := h.reached.sound
  have hmem := TransferTable.mem_of_find? ht
  refine ⟨(hsound.filed _ hmem).peer, fun hc => hc.session t ht, fun file hf => ⟨fun ha => ?_,
    fun hc => ?_⟩⟩
  · obtain ⟨limit, hs⟩ := h.tidy ha
    obtain ⟨draft, hp⟩ := (hs.filed _ hmem).running.phase
    rw [hp] at hf
    cases hf
    exact ⟨_, hs.kept_file (Tidy.kept _) ht hp⟩
  · exact h.reached.named _ hmem (hsound.kept.unbroken_iff.1 hc.store) (hc.session t ht) file
      (Option.mem_toList.2 hf)

theorem Serving.answers (h : Serving tree root overwrite tags start sheltered sv)
    {datagram : Bytes} {d : Direction} {r : Request}
    (hd : Packet.decode datagram = .ok (.request d r)) :
    Server.Answers (Within tree.serial sheltered (Quotable sv peer datagram))
      (Quotable sv peer datagram) d r.filename sv.store := by
  have hname : Quotable sv peer datagram → 10 ∉ r.filename := fun hc => hc.packet _ hd
  refine ⟨fun {file s'} ho => ⟨fun ha => ?_, fun hc => ?_⟩, fun {e s'} he hc => ?_⟩
  · obtain ⟨limit, hs⟩ := h.tidy ha
    exact ⟨_, (Tidy.kept _).opened ho (h.fresh ha) (Packet.filename_of_decode hd) hs.kept⟩
  · exact (Served.openFile_clean hc.store (hname hc) d).1 _ _ ho
  · exact (Served.openFile_clean hc.store (hname hc) d).2 _ _ he

def receiving : Server Served Handle :=
  ((Server.new bareServed {} 16).step (sending 4000 (.request .write ⟨ascii "new", octetMode, []⟩)
    0)).1

theorem reached_receiving : Reached bareServed true receiving := by
  refine .event (.start {} 16) fun _ => ⟨rfl, trivial, fresh_of_tagUsed ?_⟩
  decide +kernel

theorem serving_receiving :
    Serving bareTree (ascii "/root") false letterTags bareServed true receiving where
  opened := ⟨{}, rfl⟩
  wellFormed := wellFormed_bareTree
  reached := reached_receiving
  tagging _ := tagging_letterTags
  fresh _ := fresh_of_tagUsed (by decide +kernel)

def receivingNowhere : Server Served Handle :=
  { receiving with
    store := { receiving.store with tree := { entries := [([ascii "root"], .file 9 #[])] } } }

theorem serving_receivingNowhere :
    Serving bareTree (ascii "/root") false letterTags bareServed false receivingNowhere where
  opened := ⟨{}, rfl⟩
  wellFormed := wellFormed_bareTree
  reached := reached_receiving.changed _
  tagging := nofun
  fresh := nofun

def farewell : Packet := .error .notDefined (ascii "bye")

theorem quotable_farewell {s : Server Served Handle} (hroot : s.store.root = bareServed.root)
    (htags : s.store.tags = letterTags) (htable : s.table = receiving.table) :
    Quotable s (.ofOctets 10 0 0 1 4000) farewell.bytes where
  store := by
    refine ⟨?_, fun i => ?_⟩
    · rw [hroot]
      decide
    · rw [htags]
      exact not_mem_letterTags (by decide) (by decide) i
  packet p hp := by
    have hd : Packet.decode farewell.bytes = .ok farewell := by decide +kernel
    cases hd.symm.trans hp
    change 10 ∉ ascii "bye"
    decide
  session t ht := by
    rw [htable] at ht
    have hall : (receiving.table.find? (.ofOctets 10 0 0 1 4000)).all fun t => 10 ∉ t.filename := by
      decide +kernel
    rw [ht] at hall
    exact of_decide_eq_true hall

def forging : Packet :=
  .request .read ⟨ascii "a\n[10.0.0.9:69] RRQ for b", octetMode, []⟩

end Disk
end Tftp
