import Tftp.Proofs.Server.Sound
import Tftp.Proofs.Storage.Calls

/-!
What an event of one peer leaves alone: the transfer and the deadline of every other peer, and all
that the calls on one file keep of the others. When many deadlines have come, each peer has its turn
once, and the turns of the others leave it alone. A peer without a transfer is left alone by all
events, until it asks for one.
-/

namespace Tftp

variable {σ η : Type}

def Effects.packetsTo (x : Effects) (q : Endpoint) : List Bytes :=
  (x.sent.filter fun p => p.1 = q).map (·.2)

namespace Server

theorem packetsTo_append (x y : Effects) (q : Endpoint) :
    (x ++ y).packetsTo q = x.packetsTo q ++ y.packetsTo q := by
  change ((x.sent ++ y.sent).filter _).map _ = _
  rw [List.filter_append, List.map_append]
  rfl

theorem packetsTo_deliver (link : Link) (q : Endpoint) (a : Action) :
    (deliver link q a).packetsTo q = if a.packet.isEmpty then [] else [a.packet] := by
  unfold deliver
  split
  · rfl
  · simp [Effects.packetsTo]

theorem packetsTo_deliver_of_ne {q e : Endpoint} (h : q ≠ e) (link : Link) (a : Action) :
    (deliver link e a).packetsTo q = [] := by
  unfold deliver
  split
  · rfl
  · simp [Effects.packetsTo, Ne.symm h]

/-- The events that can matter to a peer: its own packets, and the passing of time. -/
def Event.concerns (q : Endpoint) : Event → Bool
  | .datagram _ peer _ _ => peer = q
  | .packet peer _ _ => peer = q
  | .expiry .. => true
  | .shutdown => true

def held (q : Endpoint) (s : Server σ η) : Option (Transfer η) × Option Time :=
  (s.table.find? q, s.timers.deadline? q)

section

variable {s : Server σ η} {q e : Endpoint} {now : Time}

theorem store_settle (a : Action) : (s.settle e a now).store = s.store := by
  unfold settle
  split
  · rfl
  · split
    · rfl
    · split <;> rfl

theorem held_settle (h : q ≠ e) (a : Action) : (s.settle e a now).held q = s.held q := by
  unfold settle held
  split
  · rw [TransferTable.find?_erase_of_ne h, Deadlines.deadline?_cancel h]
  · split
    · rfl
    · split
      · rfl
      · rw [Deadlines.deadline?_arm h]

def seenAfter {ω : Type} (a : Action) (t : Transfer ω) (deadline : Option Time) (now : Time) :
    Option (Transfer ω) × Option Time :=
  match a with
  | .closed _ => (none, none)
  | a => (some t, if a.packet.isEmpty then deadline else some (now + .seconds t.timeout))

theorem held_adopt_self {t : Transfer η} (hf : s.table.find? q = some t) (step : Step σ η)
    (now : Time) :
    (s.adopt q step now).held q =
      seenAfter step.action step.transfer (s.timers.deadline? q) now := by
  have hr := TransferTable.find?_replace hf step.transfer
  have hgone : (s.table.erase q).find? q = none := by simp [TransferTable.find?_eq_none_iff]
  unfold adopt seenAfter held
  cases step.action with
  | closed packet =>
    rw [settle_closed]
    simp [hgone]
  | noReply =>
    rw [settle_noReply]
    simp [hr, Action.packet]
  | reply packet | opened packet =>
    unfold settle
    dsimp only
    split
    · simp [hr]
    · simp [hr]

theorem table_settle (a : Action) :
    (s.settle e a now).table = if a.closes then s.table.erase e else s.table := by
  cases a with
  | closed packet => rfl
  | noReply => rfl
  | reply packet | opened packet =>
    simp only [settle, Action.closes, Bool.false_eq_true, if_false]
    split
    · rfl
    · split <;> rfl

theorem entries_adopt_self (step : Step σ η) :
    ((s.adopt e step now).table.erase e).entries = (s.table.erase e).entries := by
  unfold adopt
  rw [table_settle]
  split
  · rw [TransferTable.erase_replace]
    simp [TransferTable.erase]
  · rw [TransferTable.erase_replace]

end

variable [Storage σ η]

/-- What is kept for a peer is the same in both servers, and the files of all others are such as
the calls on them can make them. -/
structure Untouched (q : Endpoint) (s s' : Server σ η) : Prop where
  held : s'.held q = s.held q
  others {J : List η → σ → Prop} : Storage.Kept (fun _ => True) (fun _ => True) J →
    J (s.table.erase q).files s.store → J (s'.table.erase q).files s'.store

variable {ready : σ → Prop} {named : Bytes → Prop} {I : List η → σ → Prop} {limit : Nat}
  {due : List Endpoint} {s s' s'' : Server σ η} {q e : Endpoint} {now : Time} {t : Transfer η}

theorem Untouched.refl (q : Endpoint) (s : Server σ η) : Untouched q s s := ⟨rfl, fun _ h => h⟩

theorem Untouched.trans (h : Untouched q s s') (h' : Untouched q s' s'') : Untouched q s s'' :=
  ⟨h'.held.trans h.held, fun k hj => h'.others k (h.others k hj)⟩

theorem Untouched.find?_eq (h : Untouched q s s') : s'.table.find? q = s.table.find? q :=
  congrArg Prod.fst h.held

theorem Untouched.deadline?_eq (h : Untouched q s s') :
    s'.timers.deadline? q = s.timers.deadline? q := congrArg Prod.snd h.held

theorem Sound.kept_file (k : Storage.Kept ready named I) (h : Sound I limit due s)
    (hq : s.table.find? q = some t) {file : η} (hp : t.phase = .transferring file) :
    I (file :: (s.table.erase q).files) s.store := by
  have hi := k.perm ((TransferTable.entries_perm h.nodup hq).flatMap_right _) h.kept
  rwa [List.flatMap_cons, Transfer.files, hp] at hi

theorem Sound.untouched_adopt (h : Sound I limit due s) (hne : q ≠ e)
    (he : s.table.find? e = some t) (event : Transfer.Event) :
    Untouched q s (s.adopt e (t.react s.store event) now) where
  held := by
    unfold Server.adopt
    rw [held_settle hne, Server.held, TransferTable.find?_replace_of_ne hne, Server.held]
  others {J} k hj := by
    let rest := ((s.table.erase q).erase e).files
    have hnodup : (s.table.erase q).endpoints.Nodup := by
      rw [TransferTable.endpoints_erase]
      exact h.nodup.filter _
    have hfind : (s.table.erase q).find? e = some t := by
      rw [TransferTable.find?_erase_of_ne (Ne.symm hne), he]
    have hold := k.perm ((TransferTable.entries_perm hnodup hfind).flatMap_right _) hj
    have hnew : J ((t.react s.store event).transfer.files ++ rest) (t.react s.store event).store :=
      k.react event hold
    have outcome : Transfer.Outcome t (t.react s.store event) :=
      (h.filed _ (TransferTable.mem_of_find? he)).running.react event
    unfold Server.adopt
    rw [store_settle, table_settle, TransferTable.erase_replace]
    split
    · -- a transfer that has closed has no file
      rename_i hc
      cases outcome with
      | unmoved action => simp [action, Action.closes] at hc
      | replied packet action => simp [action, Action.closes] at hc
      | closed packet action ended =>
        rw [TransferTable.erase_comm]
        rwa [Transfer.files, ended] at hnew
    · rw [TransferTable.erase_replace_comm]
      exact k.perm ((TransferTable.replace_perm hnodup hfind _).flatMap_right _).symm hnew

theorem untouched_openTransfer (hne : q ≠ e) (d : Direction) (r : Request) :
    Untouched q s (s.openTransfer e d r now).server := by
  unfold Server.openTransfer
  split
  · exact .refl q s
  · split
    · rename_i ho
      exact ⟨rfl, fun k hj => k.refused ho trivial trivial hj⟩
    · rename_i file store ho
      let t := Transfer.new e d r.filename file (negotiate r.options).1 s.limits
      have hstart : ∀ {J : List η → σ → Prop}, Storage.Kept (fun _ => True) (fun _ => True) J →
          J (s.table.erase q).files s.store →
            J ((t.start store).transfer.files ++ (s.table.erase q).files) (t.start store).store :=
        fun k hj => k.start (t := t) (k.opened ho trivial trivial hj)
      have hpeer : (t.start store).transfer.peer = e :=
        congrArg Transfer.Terms.peer (Transfer.terms_start t store)
      have hphase : t.phase = .negotiating file := rfl
      rcases Transfer.outcome_start store hphase (Nat.zero_le _) with
        ⟨packet, ha, -⟩ | ⟨packet, ha, hover⟩
      · dsimp only
        rw [ha]
        dsimp only
        split
        · rename_i table hi
          have hne' : q ≠ (t.start store).transfer.peer := by rwa [hpeer]
          refine ⟨?_, fun {J} k hj => ?_⟩
          · unfold held
            rw [TransferTable.find?_insert? hi hne', Deadlines.deadline?_arm hne]
          · have hfiles : (table.erase q).files =
                (s.table.erase q).files ++ (t.start store).transfer.files := by
              rw [TransferTable.files, TransferTable.entries_erase_insert? hi hne',
                List.flatMap_append, List.flatMap_singleton]
              rfl
            rw [hfiles]
            exact k.perm List.perm_append_comm (hstart k hj)
        · exact ⟨rfl, fun k hj => k.discard (hstart k hj)⟩
      · dsimp only
        rw [ha]
        refine ⟨rfl, fun k hj => ?_⟩
        have hj := hstart k hj
        rwa [Transfer.files, hover] at hj

theorem Sound.untouched_route (h : Sound I limit due s) (hne : q ≠ e) (p : Packet) :
    Untouched q s (s.route e p now).server := by
  unfold Server.route
  split
  · exact .refl q s
  · rename_i p _ _ t hf hp
    obtain ⟨event, hevent⟩ := dispatch_eq_react (σ := σ) (η := η) hp
    rw [hevent]
    exact h.untouched_adopt hne hf event
  · exact untouched_openTransfer hne _ _
  · exact .refl q s

theorem untouched_receive {link : Link} {bytes : Bytes}
    (h : ∀ p, Packet.decode bytes = .ok p → Untouched q s (s.route e p now).server ∧
      (deliver link e (s.route e p now).action).packetsTo q = []) :
    Untouched q s (s.receive link e bytes now).1 ∧
      (s.receive link e bytes now).2.packetsTo q = [] := by
  unfold receive
  split
  · exact ⟨.refl q s, rfl⟩
  · rename_i p hp
    obtain ⟨hu, hsent⟩ := h p hp
    refine ⟨hu, ?_⟩
    rw [packetsTo_append, hsent]
    rfl

theorem Sound.untouched_step (h : Sound I limit due s) {event : Event} (he : ¬ event.concerns q) :
    Untouched q s (s.step event).1 ∧ (s.step event).2.packetsTo q = [] := by
  cases event with
  | datagram link peer bytes now =>
    have hne : q ≠ peer := fun hq => he (decide_eq_true hq.symm)
    exact untouched_receive fun p _ =>
      ⟨h.untouched_route hne p, packetsTo_deliver_of_ne hne link _⟩
  | packet peer p now =>
    exact ⟨h.untouched_route (fun hq => he (decide_eq_true hq.symm)) p, rfl⟩
  | expiry link now => exact (he rfl).elim
  | shutdown => exact (he rfl).elim

/-! The passing of time -/

omit [Storage σ η] in
theorem Sound.find?_due (h : Sound I limit (e :: due) s) :
    ∃ t, s.table.find? e = some t ∧ t.Running := by
  have he : e ∈ s.table.endpoints :=
    h.timers.mem_iff.1 (List.mem_append_right _ List.mem_cons_self)
  obtain ⟨t, ht⟩ := Option.isSome_iff_exists.1 (TransferTable.find?_isSome_iff.2 he)
  exact ⟨t, ht, (h.filed _ (TransferTable.mem_of_find? ht)).running⟩

theorem retry_of_find? (he : s.table.find? e = some t) (link : Link) :
    s.retry link now e = (s.adopt e (t.onTimeout s.store) now,
      { log := (t.onTimeout s.store).log } ++ deliver link e (t.onTimeout s.store).action) := by
  rw [retry, he]

theorem Sound.untouched_retry (h : Sound I limit due s) (hne : q ≠ e) (link : Link) :
    Untouched q s (s.retry link now e).1 ∧ (s.retry link now e).2.packetsTo q = [] := by
  unfold Server.retry
  split
  · exact ⟨.refl q s, rfl⟩
  · rename_i hf
    refine ⟨h.untouched_adopt hne hf .timeout, ?_⟩
    rw [packetsTo_append, packetsTo_deliver_of_ne hne]
    rfl

theorem Sound.untouched_retryAll (k : Storage.Kept ready named I) (h : Sound I limit due s)
    (hq : q ∉ due) (link : Link) :
    Untouched q s (s.retryAll link now due).1 ∧ (s.retryAll link now due).2.packetsTo q = [] := by
  induction due generalizing s with
  | nil => exact ⟨.refl q s, rfl⟩
  | cons e due ih =>
    obtain ⟨hne, hq⟩ := not_or.1 (List.mem_cons.not.1 hq)
    obtain ⟨hone, hsent⟩ := h.untouched_retry hne link
    obtain ⟨hall, hsent'⟩ := ih (h.retry k link) hq
    refine ⟨hone.trans hall, ?_⟩
    rw [Server.retryAll]
    dsimp only
    rw [packetsTo_append, hsent, hsent']
    rfl

theorem Sound.turn (k : Storage.Kept ready named I) (h : Sound I limit due s) (hq : q ∈ due)
    (link : Link) :
    ∃ (m : Server σ η) (rest : List Endpoint), Sound I limit (q :: rest) m ∧ Untouched q s m ∧
      Untouched q (m.retry link now q).1 (s.retryAll link now due).1 ∧
      (s.retryAll link now due).2.packetsTo q = (m.retry link now q).2.packetsTo q := by
  induction due generalizing s with
  | nil => cases hq
  | cons e due ih =>
    have hnodup : (e :: due).Nodup := (List.nodup_append.1 (h.timers.nodup_iff.2 h.nodup)).2.1
    have hnext : Sound I limit due (s.retry link now e).1 := h.retry k link
    rw [Server.retryAll]
    dsimp only
    rw [packetsTo_append]
    by_cases he : q = e
    · subst he
      obtain ⟨hrest, hsent⟩ := hnext.untouched_retryAll k (List.nodup_cons.1 hnodup).1 link
      exact ⟨s, _, h, .refl q s, hrest, by rw [hsent, List.append_nil]⟩
    · obtain ⟨hone, hsent⟩ := h.untouched_retry he link
      obtain ⟨m, rest, hm, hbefore, hafter, hpackets⟩ :=
        ih hnext ((List.mem_cons.1 hq).resolve_left he)
      exact ⟨m, rest, hm, hone.trans hbefore, hafter, by rw [hsent, List.nil_append, hpackets]⟩

omit [Storage σ η] in
theorem held_taken_of_not_mem (hq : q ∉ (s.timers.expire now).1) :
    ({ s with timers := (s.timers.expire now).2 } : Server σ η).held q = s.held q := by
  unfold held
  rw [Deadlines.deadline?_expire hq]

omit [Storage σ η] in
theorem held_taken_of_mem (hq : q ∈ (s.timers.expire now).1) :
    ({ s with timers := (s.timers.expire now).2 } : Server σ η).held q =
      (s.table.find? q, none) := by
  unfold held
  rw [Deadlines.deadline?_expire_of_mem hq]

theorem Sound.untouched_expire (k : Storage.Kept ready named I) (h : Sound I limit [] s)
    (hq : q ∉ (s.timers.expire now).1) (link : Link) :
    Untouched q s (s.expire link now).1 ∧ (s.expire link now).2.packetsTo q = [] := by
  obtain ⟨hrest, hsent⟩ := (h.taken now).untouched_retryAll k hq link
  have htaken : Untouched q s { s with timers := (s.timers.expire now).2 } :=
    ⟨held_taken_of_not_mem hq, fun _ hj => hj⟩
  exact ⟨htaken.trans hrest, hsent⟩

theorem Sound.turn_expire (k : Storage.Kept ready named I) (h : Sound I limit [] s)
    (hq : q ∈ (s.timers.expire now).1) (link : Link) :
    ∃ (m : Server σ η) (t : Transfer η), s.table.find? q = some t ∧ t.Running ∧
      m.table.find? q = some t ∧
      Untouched q { s with timers := (s.timers.expire now).2 } m ∧
      Untouched q (m.adopt q (t.onTimeout m.store) now) (s.expire link now).1 ∧
      (s.expire link now).2.packetsTo q =
        if (t.onTimeout m.store).action.packet.isEmpty then []
        else [(t.onTimeout m.store).action.packet] := by
  obtain ⟨m, _, hm, hbefore, hafter, hsent⟩ := (h.taken now).turn k hq link
  obtain ⟨t, hfind, hrunning⟩ := hm.find?_due
  rw [retry_of_find? hfind] at hafter hsent
  refine ⟨m, t, hbefore.find?_eq.symm.trans hfind, hrunning, hfind, hbefore, hafter,
    hsent.trans ?_⟩
  rw [packetsTo_append, packetsTo_deliver]
  rfl

/-! A peer without a transfer -/

def Event.Asks (q : Endpoint) : Event → Prop
  | .datagram _ peer bytes _ => peer = q ∧ ∃ d r, Packet.decode bytes = .ok (.request d r)
  | .packet peer p _ => peer = q ∧ ∃ d r, p = .request d r
  | .expiry .. => False
  | .shutdown => False

omit [Storage σ η] in
theorem Sound.deadline?_eq_none (h : Sound I limit [] s) (hq : s.table.find? q = none) :
    s.timers.deadline? q = none := by
  have harmed : ¬ s.timers.armed q := mt h.armed_iff.1 (by simp [hq])
  exact Deadlines.deadline?_eq_none_iff.2 (mt Deadlines.armed_iff.2 harmed)

theorem route_eq_of_find?_eq_none (hq : s.table.find? q = none) {p : Packet}
    (hp : ∀ d r, p ≠ .request d r) (now : Time) :
    (s.route q p now).server = s ∧ (s.route q p now).action = .noReply := by
  unfold Server.route
  rw [hq]
  cases p with
  | request d r => exact absurd rfl (hp d r)
  | ack | data | error | optionAck => exact ⟨rfl, rfl⟩

theorem Sound.silent_step (k : Storage.Kept ready named I) (h : Sound I limit [] s)
    (hq : s.table.find? q = none) {event : Event} (he : ¬ event.Asks q) :
    Untouched q s (s.step event).1 ∧ (s.step event).2.packetsTo q = [] := by
  by_cases hc : event.concerns q
  · cases event with
    | datagram link peer bytes now =>
      cases of_decide_eq_true hc
      refine untouched_receive fun p hp => ?_
      obtain ⟨hserver, haction⟩ := route_eq_of_find?_eq_none hq
        (fun d r hpr => he ⟨rfl, d, r, hpr ▸ hp⟩) now
      rw [hserver, haction]
      exact ⟨.refl q s, rfl⟩
    | packet peer p now =>
      cases of_decide_eq_true hc
      have hserver := (route_eq_of_find?_eq_none hq (fun d r hpr => he ⟨rfl, d, r, hpr⟩) now).1
      change Untouched q s (s.route q p now).server ∧ _
      rw [hserver]
      exact ⟨.refl q s, rfl⟩
    | expiry link now =>
      have hdue : q ∉ (s.timers.expire now).1 := by
        rw [Deadlines.mem_expire, h.deadline?_eq_none hq]
        rintro ⟨t, ht, -⟩
        cases ht
      exact h.untouched_expire k hdue link
    | shutdown =>
      refine ⟨⟨?_, fun {J} kj hj => ?_⟩, rfl⟩
      · rw [held, held, hq, h.deadline?_eq_none hq]
        rfl
      · rw [TransferTable.files, TransferTable.entries_erase_of_find?_eq_none hq] at hj
        exact releaseAll_kept kj (kj.perm (s.table.listing_perm.symm.flatMap_right _) hj)
  · exact h.untouched_step hc

theorem Sound.silent_run (k : Storage.Kept (fun _ => True) (fun _ => True) I)
    (h : Sound I limit [] s) (hq : s.table.find? q = none) {events : List Event}
    (he : ∀ event ∈ events, ¬ event.Asks q) :
    Untouched q s (s.run events).1 ∧ (s.run events).2.packetsTo q = [] := by
  induction events generalizing s with
  | nil => exact ⟨.refl q s, rfl⟩
  | cons event events ih =>
    obtain ⟨hone, hsent⟩ := h.silent_step k hq (he event List.mem_cons_self)
    have hnone : (s.step event).1.table.find? q = none := hone.find?_eq.trans hq
    obtain ⟨hrest, hsent'⟩ := ih (h.step k trivial event.named_trivial) hnone
      fun e hm => he e (List.mem_cons_of_mem event hm)
    refine ⟨hone.trans hrest, ?_⟩
    rw [Server.run, packetsTo_append, hsent, hsent']
    rfl

/-! The files of a recorded store -/

section

open Recorded

variable {s s' : Server (Recorded σ) (Numbered η)} {t : Transfer (Numbered η)} {file : Numbered η}
  {n : Nat} {made : List Call}

theorem Sound.aloof (h : Sound (Says Numbering) limit due s) (hq : s.table.find? q = some t)
    (hp : t.phase = .transferring file) :
    Says (Aloof file.number (s.store.callsOn file.number)) (s.table.erase q).files s.store :=
  Numbering.aloof (h.kept_file Numbering.lawful.kept hq hp)

theorem Untouched.aloof (hu : Untouched q s s')
    (h : Says (Aloof n made) (s.table.erase q).files s.store) :
    Says (Aloof n made) (s'.table.erase q).files s'.store :=
  hu.others (Aloof.lawful n made).kept h

omit [Storage σ η] in
theorem Sound.let_go (h : Sound (Says Numbering) limit [] s)
    (hq : s.table.find? q = none) (ha : Says (Aloof n made) (s.table.erase q).files s.store) :
    n ∉ s.store.alive ∧ s.store.callsOn n = made := by
  rw [TransferTable.files, TransferTable.entries_erase_of_find?_eq_none hq] at ha
  exact ⟨mt h.kept.live.mem_iff.2 ha.notMem, ha.calls⟩

end

end Server
end Tftp
