import Tftp.Proofs.Packet.RoundTrip
import Tftp.Proofs.Server.Consistent
import Tftp.Proofs.Server.Untouched
import Tftp.Proofs.Transfer.Faults

namespace Tftp
namespace Server

open Recorded

variable {σ η : Type} [Storage σ η]

structure Dropped (e : Endpoint) (s s' : Server (Recorded σ) (Numbered η)) : Prop where
  transfer : s'.table.find? e = none
  deadline : s'.timers.deadline? e = none
  others : ∀ q, q ≠ e → s'.table.find? q = s.table.find? q ∧
    s'.timers.deadline? q = s.timers.deadline? q
  files : s'.store.alive.Perm ((s.table.erase e).files.map (·.number))
  /-- The file of the transfer is not committed, now or later. -/
  uncommitted : ∀ t file, s.table.find? e = some t → t.phase = .transferring file →
    ∃ calls, (∀ n, .committed n true ∉ calls) ∧ ∀ events,
      (s'.run events).1.store.callsOn file.number = s.store.callsOn file.number ++ calls
  silent : ∀ events, (∀ event ∈ events, ¬ event.Asks e) → (s'.run events).2.packetsTo e = []

structure Answered (e : Endpoint) (error : StorageError) (s : Server (Recorded σ) (Numbered η))
    (after : Server (Recorded σ) (Numbered η) × Effects) : Prop where
  sent : after.2.sent = [(e, Packet.bytes (.error error.code error.code.name))]
  dropped : Dropped e s after.1

structure Contained (e : Endpoint) (bytes : Bytes)
    (s : Server (Recorded (Blamed σ)) (Numbered η))
    (after : Server (Recorded (Blamed σ)) (Numbered η) × Effects) : Prop where
  /-- No block that was read is too long for a packet, and there is one fault at most. -/
  noted : ∃ calls faults, Since s.store after.1.store calls faults ∧
    (∀ n payload, .read n (some payload) ∈ calls → ∀ block,
      Packet.encode (.data block payload) = .ok (Packet.data block payload).bytes) ∧
    ∀ error ∈ faults, faults = [error] ∧ Answered e error s after
  unresolved : ∀ d r error, Packet.decode bytes = .ok (.request d r) →
    s.table.find? e = none → s.table.full = false →
    Storage.resolve r.filename s.store = .error error → Answered e error s after

variable {limit : Nat} {e : Endpoint} {now : Time}

section

variable {s s' : Server (Recorded σ) (Numbered η)}

theorem Sound.dropped (h' : Sound (Says Numbering) limit [] s') (hnone : s'.table.find? e = none)
    (hrest : (s'.table.erase e).entries = (s.table.erase e).entries)
    (hothers : ∀ q, q ≠ e → Untouched q s s')
    (hfile : ∀ t file, s.table.find? e = some t → t.phase = .transferring file →
      ∃ calls, (∀ n, .committed n true ∉ calls) ∧
        Says (Aloof file.number (s.store.callsOn file.number ++ calls)) s'.table.files s'.store) :
    Dropped e s s' where
  transfer := hnone
  deadline := h'.deadline?_eq_none hnone
  others q hq := ⟨(hothers q hq).find?_eq, (hothers q hq).deadline?_eq⟩
  files := by
    rw [TransferTable.files, ← hrest, TransferTable.entries_erase_of_find?_eq_none hnone]
    exact h'.kept.live.symm
  uncommitted t file ht hp := by
    obtain ⟨calls, hcommit, haloof⟩ := hfile t file ht hp
    have hs : Sound (Says (Aloof file.number (s.store.callsOn file.number ++ calls))) limit [] s' :=
      { h' with kept := haloof }
    refine ⟨calls, hcommit, fun events => ?_⟩
    have hend : Sound (Says (Aloof file.number (s.store.callsOn file.number ++ calls))) limit []
        (s'.run events).1 :=
      hs.run (Aloof.lawful _ _).kept (fun _ _ => trivial) fun e _ => e.named_trivial
    exact hend.kept.calls
  silent events he := (h'.silent_run Numbering.lawful.kept hnone he).2

end

variable {s : Server (Recorded (Blamed σ)) (Numbered η)} {t : Transfer (Numbered η)}

structure Handled (e : Endpoint) (s : Server (Recorded (Blamed σ)) (Numbered η)) (packet : Bytes)
    (s' : Server (Recorded (Blamed σ)) (Numbered η)) (calls : List Call)
    (faults : List StorageError) : Prop where
  since : Since s.store s'.store calls faults
  reads : ∀ n block, .read n (some block) ∈ calls → block.length ≤ maxBlockSize
  failed : ∀ error ∈ faults, faults = [error] ∧
    packet = Packet.bytes (.error error.code error.code.name) ∧ Dropped e s s'

theorem Handled.refl (e : Endpoint) (s : Server (Recorded (Blamed σ)) (Numbered η))
    (packet : Bytes) : Handled e s packet s [] [] := ⟨.refl _, nofun, nofun⟩

theorem Sound.handled_adopt (modest : Storage.Modest σ) (h : Sound (Says Numbering) limit [] s)
    (hq : s.table.find? e = some t) (event : Transfer.Event) :
    ∃ calls faults, Handled e s (t.react s.store event).action.packet
      (s.adopt e (t.react s.store event) now) calls faults := by
  have hfiled := h.filed _ (TransferTable.mem_of_find? hq)
  obtain ⟨file, hp⟩ := hfiled.running.phase
  obtain ⟨calls, faults, account⟩ := Transfer.accounted_react modest hp s.store event
  have hstore : (s.adopt e (t.react s.store event) now).store = (t.react s.store event).store :=
    store_settle _
  refine ⟨calls, faults, hstore ▸ account.since, fun n block hm => ?_, fun error he => ?_⟩
  · exact Nat.le_trans (account.reads n block hm) hfiled.blockSize.2
  · obtain ⟨hone, haction, hvain⟩ := account.failed error he
    have hnext : Sound (Says Numbering) limit [] (s.adopt e (t.react s.store event) now) :=
      h.react Numbering.lawful.kept hq event fun _ => rfl
    have hnone : (s.adopt e (t.react s.store event) now).table.find? e = none := by
      have hheld := congrArg Prod.fst (held_adopt_self hq (t.react s.store event) now)
      rwa [haction] at hheld
    refine ⟨hone, by rw [haction]; rfl, hnext.dropped hnone (entries_adopt_self _)
      (fun q hne => h.untouched_adopt hne hq event) fun u f hu hf => ?_⟩
    cases hq.symm.trans hu
    cases hp.symm.trans hf
    refine ⟨calls, fun n hn => absurd (hvain _ hn).2 nofun, ?_⟩
    have haloof := (h.aloof hq hp).append account.own account.since.files
    rw [← account.since.calls] at haloof
    rw [TransferTable.files, ← TransferTable.entries_erase_of_find?_eq_none hnone,
      entries_adopt_self, hstore]
    exact haloof

theorem Sound.dropped_of_table_eq {s' : Server (Recorded (Blamed σ)) (Numbered η)}
    (h' : Sound (Says Numbering) limit [] s') (hq : s.table.find? e = none)
    (htable : s'.table = s.table) (hothers : ∀ q, q ≠ e → Untouched q s s') : Dropped e s s' :=
  h'.dropped (by rw [htable, hq]) (by rw [htable]) hothers fun t file ht => by simp [hq] at ht

theorem since_discard (t : Transfer (Numbered η)) (r : Recorded (Blamed σ)) :
    ∃ calls, Since r (t.discard r).2 calls [] ∧ ∀ c ∈ calls, ∃ n, c = .released n := by
  unfold Transfer.discard
  split
  · exact ⟨[], .refl r, nofun⟩
  · rename_i file _
    exact ⟨[_], since_release file r, fun c hc => ⟨_, List.mem_singleton.1 hc⟩⟩

theorem since_start (modest : Storage.Modest σ) {d : Direction} {name : Bytes}
    {file : Numbered η} {store : Recorded (Blamed σ)}
    (ho : openFile d name s.store = (.ok file, store)) (options : List OptionField) :
    let step := (Transfer.new e d name file (negotiate options).1 s.limits).start store
    ∃ calls faults, Since s.store step.store calls faults ∧
      (∀ n block, .read n (some block) ∈ calls → block.length ≤ maxBlockSize) ∧
      ∀ error ∈ faults, faults = [error] ∧
        step.action = .closed (Packet.bytes (.error error.code error.code.name)) := by
  intro step
  obtain ⟨calls, faults, account⟩ := Transfer.accounted_start modest
    (t := Transfer.new e d name file (negotiate options).1 s.limits) rfl store
  have hsize := (Transfer.blockSize_new e d name file options s.limits).2
  refine ⟨.opened file.number :: calls, faults, (since_openFile_ok ho).trans account.since,
    fun n block hm => ?_, fun error he => ?_⟩
  · rcases List.mem_cons.1 hm with hm | hm
    · cases hm
    · exact Nat.le_trans (account.reads n block hm) hsize
  · obtain ⟨hone, haction, -⟩ := account.failed error he
    exact ⟨hone, haction⟩

theorem Sound.handled_openTransfer (modest : Storage.Modest σ)
    (h : Sound (Says Numbering) limit [] s) (hq : s.table.find? e = none) (d : Direction)
    (r : Request) :
    ∃ calls faults, Handled e s (s.openTransfer e d r now).action.packet
      (s.openTransfer e d r now).server calls faults := by
  have hnext : Sound (Says Numbering) limit [] (s.openTransfer e d r now).server :=
    h.openTransfer Numbering.lawful.kept trivial trivial
  have hothers : ∀ q, q ≠ e → Untouched q s (s.openTransfer e d r now).server :=
    fun q hne => untouched_openTransfer hne d r
  unfold Server.openTransfer at hnext hothers ⊢
  split
  · exact ⟨_, _, .refl e s _⟩
  · rename_i hfull
    rw [if_neg hfull] at hnext hothers
    split
    · rename_i error store ho
      rw [ho] at hnext hothers
      rcases since_openFile_error ho with since | since
      · exact ⟨[], [], since, nofun, nofun⟩
      · refine ⟨[], [error], since, nofun, fun f hf => ?_⟩
        cases List.mem_singleton.1 hf
        exact ⟨rfl, rfl, hnext.dropped_of_table_eq hq rfl hothers⟩
    · rename_i file store ho
      rw [ho] at hnext hothers
      obtain ⟨calls, faults, since, hreads, hfailed⟩ := since_start (e := e) modest ho r.options
      dsimp only at hnext hothers ⊢
      split
      · -- a transfer that begins has met no fault
        rename_i packet ha
        have hnone : faults = [] := List.eq_nil_iff_forall_not_mem.2 fun error he =>
          nomatch ha.symm.trans (hfailed error he).2
        subst hnone
        split
        · exact ⟨calls, [], since, hreads, nofun⟩
        · let t := Transfer.new e d r.filename file (negotiate r.options).1 s.limits
          let step := t.start store
          obtain ⟨released, hdiscard, hall⟩ := since_discard step.transfer step.store
          refine ⟨_, [], since.trans hdiscard, fun n block hm => ?_, nofun⟩
          rcases List.mem_append.1 hm with hm | hm
          · exact hreads n block hm
          · obtain ⟨_, hc⟩ := hall _ hm
            cases hc
      · refine ⟨calls, faults, since, hreads, fun error he => ?_⟩
        obtain ⟨hone, haction⟩ := hfailed error he
        rw [haction] at hnext hothers
        exact ⟨hone, congrArg Action.packet haction, hnext.dropped_of_table_eq hq rfl hothers⟩

theorem Sound.handled_route (modest : Storage.Modest σ) (h : Sound (Says Numbering) limit [] s)
    (e : Endpoint) (p : Packet) (now : Time) :
    ∃ calls faults, Handled e s (s.route e p now).action.packet (s.route e p now).server calls
      faults := by
  unfold Server.route
  split
  · exact ⟨_, _, .refl e s _⟩
  · rename_i p _ _ t hq hp
    obtain ⟨event, hevent⟩ :=
      dispatch_eq_react (σ := Recorded (Blamed σ)) (η := Numbered η) hp
    rw [hevent]
    exact h.handled_adopt modest hq event
  · rename_i hq
    exact h.handled_openTransfer modest hq _ _
  · exact ⟨_, _, .refl e s _⟩

theorem route_unresolved (hq : s.table.find? e = none) (hroom : s.table.full = false)
    {d : Direction} {r : Request} {error : StorageError}
    (hr : Storage.resolve r.filename s.store = .error error) (now : Time) :
    (s.route e (.request d r) now).server = s ∧
      (s.route e (.request d r) now).action.packet =
        Packet.bytes (.error error.code error.code.name) := by
  have ho : openFile d r.filename s.store = (.error error, s.store) := by
    rw [openFile, hr]
  have hopen : (s.openTransfer e d r now).server = s ∧
      (s.openTransfer e d r now).action.packet =
        Packet.bytes (.error error.code error.code.name) := by
    rw [Server.openTransfer, hroom, ho]
    exact ⟨rfl, rfl⟩
  simp only [Server.route, hq]
  exact hopen

theorem sent_receive (link : Link) {bytes : Bytes} {p : Packet} {error : StorageError}
    (hp : Packet.decode bytes = .ok p)
    (hpacket : (s.route e p now).action.packet =
      Packet.bytes (.error error.code error.code.name)) :
    (s.receive link e bytes now).1 = (s.route e p now).server ∧
      (s.receive link e bytes now).2.sent =
        [(e, Packet.bytes (.error error.code error.code.name))] := by
  have hne : (s.route e p now).action.packet.isEmpty = false := by
    rw [hpacket]
    simp
  rw [Server.receive, hp]
  refine ⟨rfl, ?_⟩
  change [] ++ (deliver link e (s.route e p now).action).sent = _
  rw [deliver, hne, hpacket]
  rfl

theorem Sound.contained (modest : Storage.Modest σ) (h : Sound (Says Numbering) limit [] s)
    (link : Link) (e : Endpoint) (bytes : Bytes) (now : Time) :
    Contained e bytes s (s.receive link e bytes now) where
  noted := by
    cases hp : Packet.decode bytes with
    | error cause =>
      have hsame : (s.receive link e bytes now).1 = s := by rw [Server.receive, hp]
      rw [hsame]
      exact ⟨[], [], .refl _, nofun, nofun⟩
    | ok p =>
      obtain ⟨calls, faults, handled⟩ := h.handled_route modest e p now
      have hserver : (s.receive link e bytes now).1 = (s.route e p now).server := by
        rw [Server.receive, hp]
      refine ⟨calls, faults, hserver ▸ handled.since, fun n payload hm block => ?_,
        fun error he => ?_⟩
      · exact Packet.Representable.encode (p := .data block payload) (handled.reads n payload hm)
      · obtain ⟨hone, hpacket, hdropped⟩ := handled.failed error he
        exact ⟨hone, (sent_receive link hp hpacket).2, hserver ▸ hdropped⟩
  unresolved d r error hp hq hroom hr := by
    obtain ⟨hserver, hpacket⟩ := route_unresolved hq hroom hr (d := d) now
    obtain ⟨hafter, hsent⟩ := sent_receive link hp hpacket
    refine ⟨hsent, ?_⟩
    rw [hafter, hserver]
    exact h.dropped_of_table_eq hq rfl fun q _ => .refl q s

theorem since_onTimeout (t : Transfer (Numbered η)) (r : Recorded (Blamed σ)) :
    ∃ calls, Since r (t.onTimeout r).store calls [] ∧ ∀ c ∈ calls, ∃ n, c = .released n := by
  unfold Transfer.onTimeout
  split
  · rename_i file _
    split
    · exact ⟨[_], since_release file r, fun c hc => ⟨_, List.mem_singleton.1 hc⟩⟩
    · exact ⟨[], .refl r, nofun⟩
  · exact ⟨[], .refl r, nofun⟩

theorem since_retryAll (link : Link) (due : List Endpoint) :
    ∃ calls, Since s.store (s.retryAll link now due).1.store calls [] ∧
      ∀ c ∈ calls, ∃ n, c = .released n := by
  induction due generalizing s with
  | nil => exact ⟨[], .refl _, nofun⟩
  | cons e due ih =>
    have hone : ∃ calls, Since s.store (s.retry link now e).1.store calls [] ∧
        ∀ c ∈ calls, ∃ n, c = .released n := by
      unfold Server.retry
      split
      · exact ⟨[], .refl _, nofun⟩
      · rename_i t _
        obtain ⟨calls, since, hall⟩ := since_onTimeout t s.store
        refine ⟨calls, ?_, hall⟩
        change Since s.store (s.adopt e (t.onTimeout s.store) now).store calls []
        rwa [Server.adopt, store_settle]
    obtain ⟨first, hfirst, hall⟩ := hone
    obtain ⟨rest, hrest, hall'⟩ := ih (s := (s.retry link now e).1)
    exact ⟨first ++ rest, hfirst.trans hrest, List.forall_mem_append.2 ⟨hall, hall'⟩⟩

/-- Whatever the calls on the store come to, a fault ends the transfer of the peer it concerns, and
the peer is told so once. Its file is closed and stays uncommitted, and no other peer's transfer or
deadline changes. When deadlines come, no call is made that could fail. The record of calls and
faults is kept beside the server and has no part in what it does. -/
theorem faults_contained (modest : Storage.Modest σ) (store : σ) (limits : Limits) (capacity : Nat)
    (before : List Event) :
    let started : Server (Recorded (Blamed σ)) (Numbered η) :=
      new { store := { store := store } } limits capacity
    let s := (started.run before).1
    (started.run before).map
        (fun s => (s.map Numbered.file Recorded.store).map id Blamed.store) id =
        (new store limits capacity).run before ∧
      (∀ link e bytes now, Contained e bytes s (s.receive link e bytes now)) ∧
      ∀ link now, ∃ calls, Since s.store (s.expire link now).1.store calls [] ∧
        ∀ c ∈ calls, ∃ n, c = .released n := by
  intro started s
  refine ⟨?_, fun link e bytes now => ?_, fun link now => ?_⟩
  · have hblamed := run_map Recorded.image started before
    have hplain := run_map Blamed.image (started.map Numbered.file Recorded.store) before
    rw [hblamed] at hplain
    exact hplain.symm
  · exact (Sound.numbering _ limits capacity before).contained modest link e bytes now
  · exact since_retryAll (s := { s with timers := (s.timers.expire now).2 }) link _

theorem faults_contained_full_disk :
    let store : Memory.Files := Memory.Files.put (ascii "g") { content := some [1, 2] }
      (Memory.Files.put (ascii "f") { commitFault := some .diskFull } [])
    let before := [fromPort 4000 (.request .write ⟨ascii "f", octetMode, []⟩) 0,
      fromPort 4001 (.request .read ⟨ascii "g", octetMode, []⟩) 1]
    let s : Server (Recorded (Blamed Memory.Files)) (Numbered Memory.Handle) :=
      ((new { store := { store := store } } {} 2).run before).1
    let q : Endpoint := ⟨2130706433, 4000⟩
    let bytes := Packet.bytes (.data 1 [65])
    let after := s.receive (fun _ _ => true) q bytes 2
    Storage.Modest Memory.Files ∧ Contained q bytes s after ∧
      after.1.store.store.faults = [⟨.diskFull, ascii "commit failed"⟩] ∧
      after.2.sent = [(q, Packet.bytes (.error .diskFull ErrorCode.diskFull.name))] ∧
      after.1.store.alive = [1] := by
  intro store before s q bytes after
  have hcontained :=
    (faults_contained Memory.modest store {} 2 before).2.1 (fun _ _ => true) q bytes 2
  exact ⟨Memory.modest, hcontained, by decide +kernel, by decide +kernel, by decide +kernel⟩

end Server
end Tftp
