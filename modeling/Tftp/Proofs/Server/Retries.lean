import Tftp.Proofs.Server.Consistent
import Tftp.Proofs.Server.Untouched
import Tftp.Proofs.Transfer.Reaction
import Tftp.Storage.Memory

namespace Tftp

section

variable {η : Type}

namespace Transfer

/-- What a transfer takes no notice of: an acknowledgement of a block that is not its last one. -/
def Ignores (t : Transfer η) : Packet → Prop
  | .ack block => t.direction = .read ∧ block ≠ t.block
  | _ => False

instance (t : Transfer η) : DecidablePred t.Ignores
  | .ack _ => inferInstanceAs (Decidable (_ ∧ _))
  | .request .. | .data .. | .error .. | .optionAck _ => .isFalse id

def left (t : Transfer η) : Nat := t.maxRetries - t.retries

/-- What the peer is sent when the deadline has come so many times. -/
def repeats (t : Transfer η) (count : Nat) : List Bytes :=
  List.replicate (min count t.left) t.lastPacket ++
    if t.left < count then [Packet.bytes (.error .notDefined (ascii "timeout"))] else []

def retried (t : Transfer η) (count : Nat) : Transfer η := { t with retries := t.retries + count }

variable {t : Transfer η}

theorem left_retried (h : t.retries < t.maxRetries) : (t.retried 1).left + 1 = t.left := by
  unfold left retried
  dsimp only
  omega

theorem repeats_succ (h : t.retries < t.maxRetries) (count : Nat) :
    t.repeats (count + 1) = t.lastPacket :: (t.retried 1).repeats count := by
  unfold repeats
  rw [← left_retried h, Nat.add_min_add_right, List.replicate_succ]
  simp only [Nat.add_lt_add_iff_right, List.cons_append]
  rfl

end Transfer

namespace Server

def Event.Idle (q : Endpoint) (t : Transfer η) : Event → Prop
  | .datagram _ peer bytes _ => peer = q → ∀ p ∈ (Packet.decode bytes).toOption, t.Ignores p
  | .packet peer p _ => peer = q → t.Ignores p
  | .expiry .. => True
  | .shutdown => False

instance (q : Endpoint) (t : Transfer η) : DecidablePred (Event.Idle q t)
  | .datagram .. | .packet .. => inferInstanceAs (Decidable (_ → _))
  | .expiry .. => .isTrue trivial
  | .shutdown => .isFalse id

theorem Event.Idle.not_asks {q : Endpoint} {t : Transfer η} {event : Event} (h : event.Idle q t) :
    ¬ event.Asks q := by
  cases event with
  | datagram link peer bytes now =>
    rintro ⟨hpeer, d, r, hd⟩
    exact h hpeer (.request d r) (by rw [hd]; rfl)
  | packet peer p now =>
    rintro ⟨hpeer, d, r, rfl⟩
    exact h hpeer
  | expiry link now => exact id
  | shutdown => exact id

end Server

end

namespace Server

variable {σ η : Type}

def Event.fires (q : Endpoint) (s : Server σ η) : Event → Bool
  | .expiry _ now => (s.timers.deadline? q).any (· ≤ now)
  | _ => false

variable [Storage σ η]

def fires (q : Endpoint) : Server σ η → List Event → Nat
  | _, [] => 0
  | s, e :: es => (if e.fires q s then 1 else 0) + fires q (s.step e).1 es

variable {I : List η → σ → Prop} {limit : Nat} {s : Server σ η} {q : Endpoint} {t : Transfer η}
  {event : Event}

omit [Storage σ η] in
theorem mem_expire_iff_fires {link : Link} {now : Time} :
    q ∈ (s.timers.expire now).1 ↔ (Event.expiry link now).fires q s := by
  rw [Deadlines.mem_expire, Event.fires, Option.any_eq_true]
  simp

theorem route_ignored (hq : s.table.find? q = some t) (hp : ∃ file, t.phase = .transferring file)
    {p : Packet} (hi : t.Ignores p) (now : Time) :
    Untouched q s (s.route q p now).server ∧ (s.route q p now).action = .noReply := by
  obtain ⟨file, hp⟩ := hp
  cases p with
  | request | data | error | optionAck => exact hi.elim
  | ack block =>
    obtain ⟨hread, hb⟩ := hi
    obtain ⟨log, hstale⟩ := Transfer.onAck_stale hp hread hb s.store
    have hroute : s.route q (.ack block) now =
        ⟨.noReply, s.adopt q ⟨.noReply, t, s.store, log⟩ now, log⟩ := by
      simp only [Server.route, hq, dispatch, hstale]
    rw [hroute]
    refine ⟨⟨(held_adopt_self hq _ _).trans (by rw [held, hq]; rfl), fun {J} _ hj => ?_⟩, rfl⟩
    rwa [TransferTable.files, entries_adopt_self, Server.adopt, store_settle]

theorem Sound.idle_step (k : Storage.Kept (fun _ => True) (fun _ => True) I)
    (h : Sound I limit [] s) (hq : s.table.find? q = some t) (he : event.Idle q t)
    (hf : ¬ event.fires q s) :
    Untouched q s (s.step event).1 ∧ (s.step event).2.packetsTo q = [] := by
  have hp := (h.filed _ (TransferTable.mem_of_find? hq)).running.phase
  by_cases hc : event.concerns q
  · cases event with
    | datagram link peer bytes now =>
      cases of_decide_eq_true hc
      refine untouched_receive fun p hd => ?_
      obtain ⟨hu, haction⟩ := route_ignored hq hp (he rfl p (by rw [hd]; rfl)) now
      rw [haction]
      exact ⟨hu, rfl⟩
    | packet peer p now =>
      cases of_decide_eq_true hc
      exact ⟨(route_ignored hq hp (he rfl) now).1, rfl⟩
    | expiry link now => exact h.untouched_expire k (mt mem_expire_iff_fires.1 hf) link
    | shutdown => exact he.elim
  · exact h.untouched_step hc

theorem Sound.fires_eq_zero (k : Storage.Kept (fun _ => True) (fun _ => True) I)
    (h : Sound I limit [] s) (hq : s.table.find? q = none) {events : List Event}
    (he : ∀ event ∈ events, ¬ event.Asks q) : fires q s events = 0 := by
  induction events generalizing s with
  | nil => rfl
  | cons event events ih =>
    obtain ⟨hone, -⟩ := h.silent_step k hq (he event List.mem_cons_self)
    have hnone : (s.step event).1.table.find? q = none := hone.find?_eq.trans hq
    have hfirst : event.fires q s = false := by
      cases event <;> simp [Event.fires, h.deadline?_eq_none hq]
    rw [fires, hfirst, ih (h.step k trivial event.named_trivial) hnone
      fun e hm => he e (List.mem_cons_of_mem event hm)]
    rfl

section

open Recorded

variable {s s' : Server (Recorded σ) (Numbered η)} {t : Transfer (Numbered η)} {file : Numbered η}
  {due : List Endpoint}

theorem Sound.callsOn_eq (h : Sound (Says Numbering) limit due s) (hq : s.table.find? q = some t)
    (hp : t.phase = .transferring file) (hu : Untouched q s s') :
    s'.store.callsOn file.number = s.store.callsOn file.number := (hu.aloof (h.aloof hq hp)).calls

theorem Sound.fire (h : Sound (Says Numbering) limit [] s) (hq : s.table.find? q = some t)
    (hp : t.phase = .transferring file) (hf : event.fires q s) :
    ∃ (m : Server (Recorded σ) (Numbered η)) (now : Time), m.table.find? q = some t ∧
      Says (Aloof file.number (s.store.callsOn file.number)) (m.table.erase q).files m.store ∧
      Untouched q (m.adopt q (t.onTimeout m.store) now) (s.step event).1 ∧
      (s.step event).2.packetsTo q =
        if (t.onTimeout m.store).action.packet.isEmpty then []
        else [(t.onTimeout m.store).action.packet] := by
  cases event with
  | datagram | packet | shutdown => cases hf
  | expiry link now =>
    obtain ⟨m, u, hu, -, hm, hbefore, hafter, hsent⟩ :=
      h.turn_expire Numbering.lawful.kept (mem_expire_iff_fires.2 hf) link
    cases hq.symm.trans hu
    exact ⟨m, now, hm, hbefore.aloof ((h.taken now).aloof hq hp), hafter, hsent⟩

theorem Sound.fire_resend (h : Sound (Says Numbering) limit [] s) (hq : s.table.find? q = some t)
    (hp : t.phase = .transferring file) (hf : event.fires q s) (hr : t.retries < t.maxRetries) :
    (s.step event).1.table.find? q = some (t.retried 1) ∧
      (s.step event).2.packetsTo q = [t.lastPacket] ∧
      (s.step event).1.store.callsOn file.number = s.store.callsOn file.number := by
  obtain ⟨m, now, hm, hothers, hafter, hsent⟩ := h.fire hq hp hf
  obtain ⟨log, hresend⟩ := Transfer.onTimeout_resend hp hr m.store
  have hlast : t.lastPacket.isEmpty = false := by
    simpa using (h.filed _ (TransferTable.mem_of_find? hq)).running.lastPacket
  rw [hresend] at hafter hsent
  refine ⟨?_, by simpa [Action.packet, hlast] using hsent, ?_⟩
  · exact hafter.find?_eq.trans (congrArg Prod.fst (held_adopt_self hm _ _))
  · refine (hafter.aloof ?_).calls
    rwa [TransferTable.files, entries_adopt_self, Server.adopt, store_settle]

theorem Sound.fire_abort (h : Sound (Says Numbering) limit [] s) (hq : s.table.find? q = some t)
    (hp : t.phase = .transferring file) (hf : event.fires q s) (hr : t.maxRetries ≤ t.retries) :
    (s.step event).1.table.find? q = none ∧
      (s.step event).2.packetsTo q = [Packet.bytes (.error .notDefined (ascii "timeout"))] ∧
      Says (Aloof file.number (s.store.callsOn file.number ++ [.released file.number]))
        ((s.step event).1.table.erase q).files (s.step event).1.store := by
  obtain ⟨m, now, hm, hothers, hafter, hsent⟩ := h.fire hq hp hf
  obtain ⟨log, habort⟩ := Transfer.onTimeout_abort hp hr m.store
  have hpacket : (Packet.bytes (.error .notDefined (ascii "timeout"))).isEmpty = false := by
    simp
  rw [habort] at hafter hsent
  refine ⟨?_, by simpa [Action.packet, hpacket] using hsent, ?_⟩
  · exact hafter.find?_eq.trans (congrArg Prod.fst (held_adopt_self hm _ _))
  · refine hafter.aloof ?_
    rw [TransferTable.files, entries_adopt_self, Server.adopt, store_settle]
    exact Aloof.append hothers (by simp [Call.file]) (Nat.le_refl _)

/-- How a server stands, and what a peer was sent, when the deadline of its transfer has come so
many times without a word from it. -/
structure Waited (q : Endpoint) (t : Transfer (Numbered η)) (file : Numbered η) (made : List Call)
    (times : Nat) (s : Server (Recorded σ) (Numbered η)) (sent : List Bytes) : Prop where
  sent : sent = t.repeats times
  bound : times ≤ t.left + 1
  lasts : times ≤ t.left → s.table.find? q = some (t.retried times) ∧ s.timers.armed q
  ended : t.left < times →
    s.table.find? q = none ∧ ¬ s.timers.armed q ∧ file.number ∉ s.store.alive
  calls : s.store.callsOn file.number =
    made ++ if t.left < times then [.released file.number] else []

omit [Storage σ η] in
theorem Waited.succ {made : List Call} {times : Nat} {sent : List Bytes}
    (h : Waited q (t.retried 1) file made times s sent) (hr : t.retries < t.maxRetries) :
    Waited q t file made (times + 1) s (t.lastPacket :: sent) := by
  have hleft := Transfer.left_retried hr
  have hlt : (t.retried 1).left < times ↔ t.left < times + 1 := by omega
  have hnext : (t.retried 1).retried times = t.retried (times + 1) := by
    simp only [Transfer.retried, Nat.add_assoc, Nat.add_comm 1 times]
  refine ⟨?_, by have := h.bound; omega, fun hle => ?_, fun hmore => h.ended (hlt.2 hmore), ?_⟩
  · rw [h.sent, Transfer.repeats_succ hr]
  · rw [← hnext]
    exact h.lasts (by omega)
  · rw [h.calls]
    simp only [hlt]

theorem Sound.waited (h : Sound (Says Numbering) limit [] s) (hq : s.table.find? q = some t)
    (hp : t.phase = .transferring file) {events : List Event} (he : ∀ e ∈ events, e.Idle q t) :
    Waited q t file (s.store.callsOn file.number) (fires q s events) (s.run events).1
      ((s.run events).2.packetsTo q) := by
  have k : Storage.Kept (fun _ : Recorded σ => True) (fun _ => True) (Says (η := η) Numbering) :=
    Numbering.lawful.kept
  induction events generalizing s t with
  | nil =>
    have harmed : s.timers.armed q := h.armed_iff.2 (by simp [hq])
    exact ⟨by simp [Transfer.repeats, fires]; rfl, Nat.zero_le _, fun _ => ⟨hq, harmed⟩,
      fun hmore => absurd hmore (Nat.not_lt_zero _), by simp [fires]; rfl⟩
  | cons event events ih =>
    have hidle := he event List.mem_cons_self
    have hrest := fun e hm => he e (List.mem_cons_of_mem event hm)
    have hnext := h.step k trivial event.named_trivial
    rw [run_cons, packetsTo_append, fires]
    dsimp only
    cases hf : event.fires q s with
    | false =>
      obtain ⟨hu, hsent⟩ := h.idle_step k hq hidle (by simp [hf])
      have hw := ih hnext (hu.find?_eq.trans hq) hp hrest
      rw [h.callsOn_eq hq hp hu] at hw
      simpa [hsent] using hw
    | true =>
      rw [if_pos rfl]
      by_cases hr : t.retries < t.maxRetries
      · obtain ⟨hfind, hsent, hcalls⟩ := h.fire_resend hq hp hf hr
        have hw := ih hnext hfind hp hrest
        rw [hcalls] at hw
        rw [hsent, Nat.add_comm]
        exact hw.succ hr
      · have hr := Nat.le_of_not_lt hr
        have hleft : t.left = 0 := Nat.sub_eq_zero_of_le hr
        obtain ⟨hfind, hsent, haloof⟩ := h.fire_abort hq hp hf hr
        have hsilent := fun e hm => (hrest e hm).not_asks
        obtain ⟨hu, hnothing⟩ := hnext.silent_run k hfind hsilent
        have hnone := hu.find?_eq.trans hfind
        have hend : Sound (Says Numbering) limit [] ((s.step event).1.run events).1 :=
          hnext.run k (fun _ _ => trivial) fun e _ => e.named_trivial
        obtain ⟨hdead, hcalls⟩ := hend.let_go hnone (hu.aloof haloof)
        rw [hsent, hnothing, hnext.fires_eq_zero k hfind hsilent]
        exact {
          sent := by simp [Transfer.repeats, hleft]
          bound := Nat.succ_le_succ (Nat.zero_le _)
          lasts := fun hle => by simp [hleft] at hle
          ended := fun _ => ⟨hnone, mt hend.armed_iff.1 (by simp [hnone]), hdead⟩
          calls := by simpa [hleft] using hcalls }

/-- As long as the peer of a transfer says nothing that counts, it is sent the last packet once for
each of its deadlines, but no more often than there are retries left. One more deadline, and the
transfer ends with an error; its file is released and was not committed. The record of the files is
kept beside the server and has no part in what it does. -/
theorem retry_budget (store : σ) (limits : Limits) (capacity : Nat) (before events : List Event)
    (q : Endpoint) (t : Transfer (Numbered η)) :
    let s := ((new { store := store } limits capacity : Server (Recorded σ) (Numbered η)).run
      before).1
    s.table.find? q = some t → (∀ e ∈ events, e.Idle q t) →
      (s.run events).map (·.map Numbered.file Recorded.store) id =
        ((new store limits capacity).run before).1.run events ∧
      t.retries ≤ t.maxRetries ∧
      ∃ file, t.phase = .transferring file ∧
        Waited q t file (s.store.callsOn file.number) (fires q s events) (s.run events).1
          ((s.run events).2.packetsTo q) := by
  intro s hq he
  have hs : Sound (Says Numbering) capacity [] s := .numbering store limits capacity before
  have hrunning := (hs.filed _ (TransferTable.mem_of_find? hq)).running
  obtain ⟨file, hp⟩ := hrunning.phase
  have hplain : s.map Numbered.file Recorded.store = ((new store limits capacity).run before).1 :=
    (congrArg Prod.fst (run_map Recorded.image _ before)).symm
  refine ⟨?_, hrunning.retries, file, hp, hs.waited hq hp he⟩
  rw [← hplain]
  exact (run_map Recorded.image s events).symm

theorem retry_budget_one_left :
    let store : Memory.Files := Memory.Files.put (ascii "f") { content := some [65, 66] } []
    let q : Endpoint := ⟨2130706433, 4000⟩
    let s : Server (Recorded Memory.Files) (Numbered Memory.Handle) :=
      ((new { store := store } { retries := 1 } 2).run
        [fromPort 4000 (.request .read ⟨ascii "f", octetMode, []⟩) 0]).1
    let events := [fromPort 4000 (.ack 0) 4, .expiry (fun _ _ => true) (.seconds 5),
      fromPort 4001 (.ack 1) (.seconds 6), .datagram (fun _ _ => true) q [0, 9] (.seconds 9),
      .expiry (fun _ _ => true) (.seconds 10 - 1), .expiry (fun _ _ => true) (.seconds 10),
      fromPort 4000 (.ack 7) (.seconds 11), .expiry (fun _ _ => true) (.seconds 20)]
    let sent := (s.run events).2.packetsTo q
    ∃ t file, s.table.find? q = some t ∧ (∀ e ∈ events, e.Idle q t) ∧ fires q s events = 2 ∧
      Waited q t file (s.store.callsOn file.number) 2 (s.run events).1 sent ∧
      sent = [Packet.bytes (.data 1 [65, 66]),
        Packet.bytes (.error .notDefined (ascii "timeout"))] := by
  intro store q s events sent
  have hsome : (s.table.find? q).isSome := by decide +kernel
  obtain ⟨t, ht⟩ := Option.isSome_iff_exists.1 hsome
  have hidle : ∀ t ∈ s.table.find? q, ∀ e ∈ events, e.Idle q t := by decide +kernel
  have hfires : fires q s events = 2 := by decide +kernel
  obtain ⟨-, -, file, -, hwaited⟩ := retry_budget store { retries := 1 } 2
    [fromPort 4000 (.request .read ⟨ascii "f", octetMode, []⟩) 0] events q t ht (hidle t ht)
  rw [hfires] at hwaited
  exact ⟨t, file, ht, hidle t ht, hfires, hwaited, by decide +kernel⟩

end

end Server
end Tftp
