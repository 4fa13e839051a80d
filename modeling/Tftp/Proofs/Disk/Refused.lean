import Tftp.Proofs.Disk.Layout
import Tftp.Proofs.Disk.NoOverwrite
import Tftp.Proofs.Server.Replies

namespace Tftp

section

variable {σ η : Type} [Storage σ η]

theorem Transfer.start_closed {t : Transfer η} {file : η} (hp : t.phase = .negotiating file)
    {store : σ} {packet : Bytes} (ha : (t.start store).action = .closed packet) :
    t.direction = .read ∧ ∃ error file' store',
      Storage.read t.blockSize file store = (.error error, file', store') ∧
        (t.start store).store = (Storage.release file' store').2 := by
  by_cases hc : t.accepted.choices = []
  · cases hd : t.direction with
    | write =>
      rw [start_write hp hd hc] at ha
      cases ha
    | read =>
      rcases hr : Storage.read t.blockSize file store with ⟨error | payload, file', store'⟩
      · rw [start_failed hp hd hc hr]
        exact ⟨rfl, error, file', store', rfl, rfl⟩
      · rw [start_read hp hd hc hr] at ha
        cases ha
  · obtain ⟨log, hs⟩ := start_options hp hc store
    rw [hs] at ha
    cases ha

namespace Server

inductive Refusal (s : Server σ η) (d : Direction) (name : Bytes) (s' : Server σ η) : Prop
  | busy (full : s.table.full = true) (server : s' = s)
  | unopened (error : StorageError) (store : σ)
      (opening : openFile d name s.store = (.error error, store))
      (server : s' = { s with store := store })
  | unread (direction : d = .read) (file file' : η) (store store' : σ) (size : Nat)
      (error : StorageError) (opening : openFile d name s.store = (.ok file, store))
      (read : Storage.read size file store = (.error error, file', store'))
      (server : s' = { s with store := (Storage.release file' store').2 })

variable {s : Server σ η} {e : Endpoint} {d : Direction} {r : Request} {now : Time}
  {code : ErrorCode} {message : Bytes}

theorem refusal_openTransfer (hq : s.table.find? e = none)
    (herror : Packet.decode (s.openTransfer e d r now).action.packet = .ok (.error code message)) :
    Refusal s d r.filename (s.openTransfer e d r now).server := by
  unfold openTransfer at herror ⊢
  split at herror
  · rename_i hfull
    rw [if_pos hfull]
    exact .busy hfull rfl
  · rename_i hroom
    rw [if_neg hroom]
    split at herror
    · rename_i error store ho
      exact .unopened error store ho rfl
    · rename_i file store ho
      let t := Transfer.new e d r.filename file (negotiate r.options).1 s.limits
      have hopening : Transfer.Opening t file store (t.start store) :=
        Transfer.opening_start rfl store
      -- there is room for a transfer that has begun, so its own packet is sent
      have hinsert : ∃ table, s.table.insert? (t.start store).transfer = some table := by
        have hpeer : (t.start store).transfer.peer = e :=
          congrArg Transfer.Terms.peer (Transfer.terms_start t store)
        simp [TransferTable.insert?, hpeer, hq, hroom]
      obtain ⟨table, hinsert⟩ := hinsert
      have hopened : ∀ p : Packet, (t.start store).action = .opened p.bytes → p.opcode = 5 := by
        intro p ha
        dsimp only at herror
        simp only [ha, hinsert, t] at herror
        exact Packet.opcode_of_decode herror
      cases hopening with
      | offered accepted action => cases hopened _ action
      | awaited accepted direction action => cases hopened _ action
      | sent payload file' accepted direction read action => cases hopened _ action
      | failed file' error direction read action =>
        obtain ⟨hd, error, file', store', hread, hstore⟩ := Transfer.start_closed (t := t) rfl action
        refine .unread hd file file' store store' _ error ho hread ?_
        dsimp only
        rw [action]
        exact congrArg (fun store => { s with store := store }) hstore

theorem receive_unasked {link : Link} {bytes : Bytes}
    (hd : Packet.decode bytes = .ok (.request d r))
    (h : s.table.full = true ∨ (s.table.find? e).isSome) :
    (s.receive link e bytes now).1 = s ∧
      ∀ operations : Storage σ η, @receive σ η operations s link e bytes now =
        s.receive link e bytes now := by
  unfold receive
  rw [hd]
  dsimp only
  unfold route
  cases hq : s.table.find? e with
  | some t => exact ⟨rfl, fun _ => rfl⟩
  | none =>
    have hfull : s.table.full = true := by simpa [hq] using h
    simp [openTransfer, hfull]

theorem refusal_receive {link : Link} {bytes packet : Bytes}
    (hd : Packet.decode bytes = .ok (.request d r))
    (hsent : (e, packet) ∈ (s.receive link e bytes now).2.sent)
    (herror : Packet.decode packet = .ok (.error code message)) :
    (s.receive link e bytes now).1 = s ∨
      Refusal s d r.filename (s.receive link e bytes now).1 := by
  obtain ⟨hserver, hpackets⟩ := receive_of_decode (q := e) s link hd now
  rw [hserver]
  have haction : Packet.decode (s.route e (.request d r) now).action.packet =
      .ok (.error code message) := by
    rw [hpackets] at hsent
    obtain ⟨_, hmem, heq⟩ := List.mem_map.1 hsent
    cases heq
    rwa [← (Action.mem_packets hmem).2]
  unfold route at haction ⊢
  cases hq : s.table.find? e with
  | some t => exact .inl rfl
  | none =>
    rw [hq] at haction
    exact .inr (refusal_openTransfer hq haction)

end Server

end

namespace Disk

theorem Tree.remove_erases {t t' : Tree} {text : Bytes} (h : t.remove text = .ok t') :
    ∃ p, t.entryAt? text = some p ∧ t.node? p ≠ none ∧ t' = t.erase p := by
  unfold remove at h
  unfold entryAt?
  split at h
  · cases h
  · cases h
  · cases h
  · cases h
  · rename_i dir n trailing hf
    rw [hf]
    cases hc : child dir n with
    | error e => simp [hc, Except.bind] at h
    | ok p =>
      obtain ⟨-, rfl⟩ := child_eq_ok_iff.1 hc
      simp only [hc, Except.bind] at h
      refine ⟨_, rfl, ?_⟩
      unfold removeChild at h
      split at h
      · cases h
      · rename_i hn
        split at h <;> cases h
        exact ⟨by simp [hn], rfl⟩
      · rename_i hn
        split at h <;> cases h
        exact ⟨by simp [hn], rfl⟩

namespace Served

variable {s : Served} {name : Bytes}

/-- A tree without what stands where the next upload to a name would put its staging file. -/
inductive Cleared (s : Served) (name : Bytes) (t : Tree) : Prop
  | entry {path : Path} {p : Place} (resolved : s.resolve name = .ok path)
    (staging : s.tree.entryAt? (stagingName path.text (s.tags s.drawn)) = some p)
    (taken : s.tree.node? p ≠ none) (tree : t = s.tree.erase p)

theorem tree_openWrite {path : Bytes} {e : Error} {s' : Served}
    (h : s.openWrite true path = (.error e, s')) : s'.tree = s.tree ∨
      s.tree.remove (stagingName path (s.tags s.drawn)) = .ok s'.tree := by
  unfold openWrite at h
  split at h
  · cases h
    exact .inl rfl
  · split at h
    · cases h
      exact .inl rfl
    · have hstage : s.stage true path (stagingName path (s.tags s.drawn)) =
          openStaging s.tree true path (stagingName path (s.tags s.drawn)) := rfl
      dsimp only at h
      rw [hstage, openStaging] at h
      split at h
      · cases h
      · cases hremove : s.tree.remove (stagingName path (s.tags s.drawn)) with
        | error cause =>
          rw [hremove] at h
          cases h
          exact .inl rfl
        | ok t =>
          rw [hremove] at h
          cases h
          exact .inr rfl

theorem tree_openFile {d : Direction} {e : StorageError} {s' : Served}
    (h : Server.openFile d name s = (.error e, s')) :
    s'.tree = s.tree ∨ d = .write ∧ s.Cleared name s'.tree := by
  cases hr : s.resolve name with
  | error cause =>
    exact .inl (congrArg (·.2.tree) (h.symm.trans (openFile_unresolved hr d)))
  | ok path =>
    cases d with
    | read => exact .inl (congrArg (·.2.tree) (h.symm.trans (openFile_read_ok hr)))
    | write =>
      rw [openFile_write_ok hr] at h
      rcases hw : s.openWrite true path.text with ⟨cause | file, after⟩
      · rw [hw] at h
        cases h
        refine (tree_openWrite hw).imp_right fun hremove => ⟨rfl, ?_⟩
        obtain ⟨p, hp, hn, htree⟩ := Tree.remove_erases hremove
        exact .entry hr hp hn htree
      · rw [hw] at h
        cases h

theorem openFile_read_settled {file : Handle} {s' : Served}
    (h : Server.openFile .read name s = (.ok file, s')) : file.Settled ∧ s' = s := by
  cases hr : s.resolve name with
  | error cause => cases (openFile_unresolved hr .read).symm.trans h
  | ok path =>
    rw [openFile_read_ok hr] at h
    cases ho : s.openRead path.text with
    | error cause =>
      rw [ho] at h
      cases h
    | ok file' =>
      rw [ho] at h
      cases h
      obtain ⟨reader, size, rfl⟩ := openRead_reader ho
      exact ⟨trivial, rfl⟩

end Served

/-- Nothing of a server is changed by a request for a name, but that a tag may be used up, and
something may be gone that stood under the name of a staging file. -/
structure Traceless (d : Direction) (name : Bytes)
    (s s' : Server (Recorded Served) (Numbered Handle)) : Prop where
  table : s'.table = s.table
  timers : s'.timers = s.timers
  limits : s'.limits = s.limits
  alive : s'.store.alive = s.store.alive
  tree : s'.store.store.tree = s.store.store.tree ∨
    d = .write ∧ s.store.store.Cleared name s'.store.store.tree

variable {d : Direction} {name : Bytes}

theorem Traceless.refl (s : Server (Recorded Served) (Numbered Handle)) : Traceless d name s s :=
  ⟨rfl, rfl, rfl, rfl, .inl rfl⟩

theorem traceless_of_refusal {s s' : Server (Recorded Served) (Numbered Handle)}
    (h : Server.Refusal s d name s') : Traceless d name s s' := by
  cases h with
  | busy full server =>
    rw [server]
    exact .refl s
  | unopened error store opening server =>
    subst server
    rw [Server.openFile_recorded] at opening
    rcases ho : Server.openFile d name s.store.store with ⟨cause | file, served⟩ <;>
      rw [ho] at opening <;> cases opening
    exact ⟨rfl, rfl, rfl, rfl, Served.tree_openFile ho⟩
  | unread direction file file' store store' size error opening read server =>
    subst server direction
    rw [Server.openFile_recorded] at opening
    rcases ho : Server.openFile .read name s.store.store with ⟨cause | handle, served⟩ <;>
      rw [ho] at opening <;> cases opening
    obtain ⟨hsettled, rfl⟩ := Served.openFile_read_settled ho
    obtain ⟨last, hread, hnumber, rfl⟩ := Recorded.read_eq read
    have hfile : file'.file.Settled := by
      have hafter : (Served.read s.store.store size handle).2.1 = file'.file :=
        congrArg (·.2.1) hread
      exact hafter ▸ (hsettled.read size).1
    have hlast : last = s.store.store :=
      (congrArg (·.2.2) hread).symm.trans (hsettled.read size).2
    subst hlast
    have hreleased : (Storage.release file'.file s.store.store).2 = s.store.store := hfile.release
    refine ⟨rfl, rfl, rfl, ?_, .inl (congrArg Served.tree hreleased)⟩
    simp [Recorded.alive, Call.track, hnumber]

variable {r : Request} {bytes packet : Bytes} {code : ErrorCode} {message : Bytes}

/-- A request that is answered with an error leaves no trace, in whatever state the server is and
whatever the reason; only something that stands where an upload would have put its staging file may
be gone. If the server is full or the peer has a transfer, the server does not even turn to the
directory. -/
theorem refused_traceless (s : Server (Recorded Served) (Numbered Handle)) (link : Link)
    (e : Endpoint) (now : Time) (asked : Packet.decode bytes = .ok (.request d r))
    (sent : (e, packet) ∈ (s.receive link e bytes now).2.sent)
    (error : Packet.decode packet = .ok (.error code message)) :
    (s.map Numbered.file Recorded.store).receive link e bytes now =
        (s.receive link e bytes now).map (·.map Numbered.file Recorded.store) id ∧
      Traceless d r.filename s (s.receive link e bytes now).1 ∧
      (s.table.full = true ∨ (s.table.find? e).isSome →
        (s.receive link e bytes now).1 = s ∧
          ∀ operations : Storage (Recorded Served) (Numbered Handle),
            @Server.receive _ _ operations s link e bytes now = s.receive link e bytes now) := by
  refine ⟨Server.receive_map Recorded.image link bytes, ?_, Server.receive_unasked asked⟩
  rcases Server.refusal_receive asked sent error with hsame | hrefusal
  · rw [hsame]
    exact .refl s
  · exact traceless_of_refusal hrefusal

theorem refused_traceless_long_name :
    let s := bareServed.recorded {} 16 firstUpload
    let r : Request := ⟨List.replicate 250 97, octetMode, []⟩
    let bytes := Packet.bytes (.request .write r)
    let e : Endpoint := ⟨2130706433, 4002⟩
    let packet := Packet.bytes (.error .accessViolation (ascii "access violation"))
    Packet.decode bytes = .ok (.request .write r) ∧
      (e, packet) ∈ (s.receive (fun _ _ => true) e bytes 3).2.sent ∧
      s.table.size = 1 ∧
      Traceless .write r.filename s (s.receive (fun _ _ => true) e bytes 3).1 := by
  intro s r bytes e packet
  have asked : Packet.decode bytes = .ok (.request .write r) := by decide +kernel
  have sent : (e, packet) ∈ (s.receive (fun _ _ => true) e bytes 3).2.sent := by decide +kernel
  have error : Packet.decode packet =
      .ok (.error .accessViolation (ascii "access violation")) := by
    decide +kernel
  exact ⟨asked, sent, by decide +kernel,
    (refused_traceless s _ e 3 asked sent error).2.1⟩

def takenServed : Served where
  tree := { entries := [([ascii "root"], .dir),
    ([ascii "root", stagingLast (ascii "f") (letterTags 0)], .dir)] }
  root := [ascii "root"]
  tags := letterTags

/-- A request that is refused because something stands where its staging file would be costs the
directory what stands there. -/
theorem not_traceless_taken :
    ¬ ∀ (tree : Tree) (root : Bytes) (overwrite : Bool) (tags : Nat → Bytes) (faults : Faults)
      (served : Served) (limits : Limits) (capacity : Nat) (events : List Server.Event)
      (link : Link) (e : Endpoint) (bytes : Bytes) (now : Time) (d : Direction) (r : Request)
      (packet : Bytes) (code : ErrorCode) (message : Bytes),
      Served.openAt tree root overwrite tags faults = .ok served →
        let s := served.recorded limits capacity events
        Packet.decode bytes = .ok (.request d r) →
          (e, packet) ∈ (s.receive link e bytes now).2.sent →
            Packet.decode packet = .ok (.error code message) →
              (s.receive link e bytes now).1.store.store.tree = s.store.store.tree := by
  intro hall
  let s := takenServed.recorded {} 16 []
  let r : Request := ⟨ascii "f", octetMode, []⟩
  let bytes := Packet.bytes (.request .write r)
  let e : Endpoint := ⟨2130706433, 4000⟩
  let packet := Packet.bytes (.error .accessViolation (ascii "access violation"))
  let place : Place := [ascii "root", stagingLast (ascii "f") (letterTags 0)]
  have asked : Packet.decode bytes = .ok (.request .write r) := by decide +kernel
  have sent : (e, packet) ∈ (s.receive (fun _ _ => true) e bytes 0).2.sent := by decide +kernel
  have error : Packet.decode packet =
      .ok (.error .accessViolation (ascii "access violation")) := by
    decide +kernel
  have htree := hall takenServed.tree (ascii "/root") true letterTags {} takenServed {} 16 []
    (fun _ _ => true) e bytes 0 .write r packet _ _ rfl asked sent error
  have hbefore : s.store.store.tree.node? place = some .dir := by decide +kernel
  have hafter : (s.receive (fun _ _ => true) e bytes 0).1.store.store.tree.node? place = none := by
    decide +kernel
  rw [htree] at hafter
  cases hafter.symm.trans hbefore

end Disk
end Tftp
