import Tftp.Proofs.Deadlines.Agenda
import Tftp.Proofs.Server.Replies
import Tftp.Proofs.Server.Timers

namespace Tftp

def Effects.peers (x : Effects) : List Endpoint := x.sent.map (·.1)

theorem Effects.peers_append (x y : Effects) : (x ++ y).peers = x.peers ++ y.peers :=
  List.map_append

namespace Server

variable {σ η : Type}

/-- What the queue is asked for when a peer has had its turn. A transfer that has said something is
armed a timeout ahead, and one that is over is armed no more. -/
def retimed (after : Server σ η) (now : Time) (q : Endpoint) (spoke : Bool) :
    List Alarms.Call :=
  match after.table.find? q with
  | none => [.cancel q]
  | some t => if spoke then [.arm q (now + .seconds t.timeout)] else []

theorem retimed_congr {s s' : Server σ η} {q : Endpoint} (h : s'.table.find? q = s.table.find? q)
    (now : Time) (spoke : Bool) : s'.retimed now q spoke = s.retimed now q spoke := by
  unfold retimed
  rw [h]

inductive Turned (q : Endpoint) (now : Time) (spoke : Prop) (s s' : Server σ η) : Prop
  | unmoved (t : Transfer η) (found : s'.table.find? q = some t) (silent : ¬ spoke)
      (timers : s'.timers = s.timers)
  | armed (t : Transfer η) (found : s'.table.find? q = some t) (spoken : spoke)
      (timers : s'.timers = s.timers.arm q (now + .seconds t.timeout))
  | gone (found : s'.table.find? q = none) (timers : s'.timers = s.timers.cancel q)

variable {s s' : Server σ η} {q e : Endpoint} {now : Time} {t : Transfer η}

theorem Turned.congr {a b : Prop} (h : Turned q now a s s')
    (hab : s'.table.find? q ≠ none → (a ↔ b)) : Turned q now b s s' := by
  cases h with
  | unmoved t found silent timers =>
    exact .unmoved t found (mt (hab (by simp [found])).2 silent) timers
  | armed t found spoken timers => exact .armed t found ((hab (by simp [found])).1 spoken) timers
  | gone found timers => exact .gone found timers

theorem Turned.timers_eq {spoke : Prop} [Decidable spoke] (h : Turned q now spoke s s') :
    s'.timers = s.timers.run (s'.retimed now q (decide spoke)) := by
  cases h with
  | unmoved t found silent timers =>
    have hcalls : s'.retimed now q (decide spoke) = [] := by simp [retimed, found, silent]
    rw [hcalls]
    exact timers
  | armed t found spoken timers =>
    have hcalls : s'.retimed now q (decide spoke) = [.arm q (now + .seconds t.timeout)] := by
      simp [retimed, found, spoken]
    rw [hcalls]
    exact timers
  | gone found timers =>
    have hcalls : s'.retimed now q (decide spoke) = [.cancel q] := by simp [retimed, found]
    rw [hcalls]
    exact timers

variable [Storage σ η]

/-- The calls on the queue in an event. When deadlines have come, the peers have their turns as they
are sent something. -/
def timerCalls (s : Server σ η) (event : Event) : List Alarms.Call :=
  match event with
  | .datagram _ peer _ now | .packet peer _ now =>
    (s.step event).1.retimed now peer (s.Speaks peer event)
  | .expiry _ now =>
    .expire now :: (s.step event).2.peers.flatMap fun peer =>
      (s.step event).1.retimed now peer true
  | .shutdown => [.clear]

def allTimerCalls : Server σ η → List Event → List Alarms.Call
  | _, [] => []
  | s, event :: events => s.timerCalls event ++ allTimerCalls (s.step event).1 events

variable {I : List η → σ → Prop} {limit : Nat} {due : List Endpoint}

/-! One turn -/

omit [Storage σ η] in
theorem turned_adopt (hf : s.table.find? q = some t) {step : Step σ η}
    (outcome : Transfer.Outcome t step) :
    Turned q now (step.action.packets ≠ []) s (s.adopt q step now) := by
  have hfind := TransferTable.find?_replace hf step.transfer
  unfold adopt
  cases outcome with
  | unmoved action =>
    rw [action, settle_noReply]
    exact .unmoved step.transfer hfind (fun h => h rfl) rfl
  | replied packet action sent =>
    have hspoke : step.action.packets ≠ [] := by simp [Action.packets, Action.packet, action, sent]
    rw [action] at hspoke ⊢
    rw [settle_reply sent hfind]
    exact .armed step.transfer hfind hspoke rfl
  | closed packet action =>
    rw [action, settle_closed]
    exact .gone (by simp [TransferTable.find?_eq_none_iff]) rfl

theorem turned_openTransfer (hq : s.table.find? q = none) (hd : s.timers.deadline? q = none)
    (d : Direction) (r : Request) : Turned q now True s (s.openTransfer q d r now).server := by
  have hcancel := (Deadlines.cancel_of_deadline?_eq_none hd).symm
  unfold openTransfer
  split
  · exact .gone hq hcancel
  · split
    · exact .gone hq hcancel
    · rename_i file store _
      let t := Transfer.new q d r.filename file (negotiate r.options).1 s.limits
      have hpeer : (t.start store).transfer.peer = q :=
        congrArg Transfer.Terms.peer (Transfer.terms_start t store)
      dsimp only
      split
      · split
        · rename_i table hi
          have hfind : table.find? (t.start store).transfer.peer =
            some (t.start store).transfer := TransferTable.find?_insert?_self hi
          rw [hpeer] at hfind
          exact .armed _ hfind trivial rfl
        · exact .gone hq hcancel
      · exact .gone hq hcancel

theorem Sound.turned_route (h : Sound I limit [] s) {event : Event} {p : Packet}
    (brings : event.packetFrom? q = some p) (hstep : (s.step event).1 = (s.route q p now).server)
    (hreplies : s.replies q event = (s.route q p now).action.packets) :
    Turned q now (s.Speaks q event) s (s.step event).1 := by
  unfold Speaks
  rw [hstep, hreplies, Event.asks_iff, brings]
  cases hq : s.table.find? q with
  | none =>
    have hd := h.deadline?_eq_none hq
    by_cases hp : ∃ d r, p = .request d r
    · obtain ⟨d, r, rfl⟩ := hp
      have hserver : (s.route q (.request d r) now).server =
          (s.openTransfer q d r now).server := by
        simp only [Server.route, hq]
      have hone := Action.length_packets (packet_route_request s q d r now)
      have hpackets : (s.route q (.request d r) now).action.packets ≠ [] :=
        List.ne_nil_of_length_eq_add_one hone
      rw [hserver]
      exact (turned_openTransfer hq hd d r).congr fun hnew =>
        iff_of_true trivial ⟨hpackets, fun _ => ⟨rfl, hnew⟩⟩
    · obtain ⟨hserver, -⟩ := route_eq_of_find?_eq_none hq (fun d r hpr => hp ⟨d, r, hpr⟩) now
      rw [hserver]
      exact .gone hq (Deadlines.cancel_of_deadline?_eq_none hd).symm
  | some t =>
    have hrunning := (h.filed _ (TransferTable.mem_of_find? hq)).running
    by_cases hp : ∃ d r, p = .request d r
    · obtain ⟨d, r, rfl⟩ := hp
      have hserver : (s.route q (.request d r) now).server = s := by
        simp only [Server.route, hq]
      rw [hserver]
      refine .unmoved t hq (fun hs => ?_) rfl
      -- a request speaks for no transfer but the one that it starts
      cases (hs.2 ⟨d, r, rfl⟩).1
    · obtain ⟨reaction, hreaction⟩ :=
        dispatch_eq_react (σ := σ) (η := η) fun d r hpr => hp ⟨d, r, hpr⟩
      have hroute : s.route q p now = ⟨(t.react s.store reaction).action,
          s.adopt q (t.react s.store reaction) now, (t.react s.store reaction).log⟩ := by
        cases p with
        | request d r => exact absurd ⟨d, r, rfl⟩ hp
        | ack | data | error | optionAck => simp only [Server.route, hq, hreaction]
      rw [hroute]
      refine (turned_adopt hq (hrunning.react reaction)).congr fun _ =>
        ⟨fun hs => ⟨hs, ?_⟩, And.left⟩
      rintro ⟨d, r, hpr⟩
      exact absurd ⟨d, r, Option.some.inj hpr⟩ hp

theorem replies_of_decode (s : Server σ η) (link : Link) {bytes : Bytes} {p : Packet}
    (hp : Packet.decode bytes = .ok p) (now : Time) :
    s.replies q (.datagram link q bytes now) = (s.route q p now).action.packets := by
  change (s.receive link q bytes now).2.packetsTo q = _
  unfold receive
  rw [hp]
  dsimp only
  rw [packetsTo_append, packetsTo_deliver]
  rfl

theorem Sound.turned_receive (h : Sound I limit [] s) (link : Link) (bytes : Bytes) :
    Turned q now (s.Speaks q (.datagram link q bytes now)) s (s.receive link q bytes now).1 := by
  cases hp : Packet.decode bytes with
  | error e =>
    obtain ⟨hsame, hsent⟩ := (replied s link q bytes now).unread e hp
    have hsilent : ¬ s.Speaks q (.datagram link q bytes now) := fun hs => hs.1 (by
      change (s.receive link q bytes now).2.packetsTo q = []
      rw [Effects.packetsTo, hsent]
      rfl)
    rw [hsame]
    cases hq : s.table.find? q with
    | none =>
      exact .gone hq (Deadlines.cancel_of_deadline?_eq_none (h.deadline?_eq_none hq)).symm
    | some t => exact .unmoved t hq hsilent rfl
  | ok p =>
    exact h.turned_route (by simp [Event.packetFrom?, hp, Except.toOption])
      (receive_of_decode s link hp now).1 (replies_of_decode s link hp now)

/-! One turn after the other -/

theorem Sound.turned_retry (h : Sound I limit (e :: due) s) (link : Link) (now : Time) :
    Turned e now True s (s.retry link now e).1 ∧ (s.retry link now e).2.peers = [e] := by
  obtain ⟨t, ht, hrunning⟩ := h.find?_due
  have hone := Action.length_packets (hrunning.packet_onTimeout s.store)
  rw [retry_of_find? ht]
  constructor
  · have hspoke := List.ne_nil_of_length_eq_add_one hone
    exact (turned_adopt ht hrunning.onTimeout.1).congr fun _ => iff_of_true hspoke trivial
  · obtain ⟨packet, hpacket⟩ := List.length_eq_one_iff.1 hone
    rw [Effects.peers_append, Effects.peers, Effects.peers, sent_deliver, hpacket]
    rfl

theorem Sound.turned_retryAll (k : Storage.Kept (fun _ => True) (fun _ => True) I)
    (h : Sound I limit due s) (link : Link) (now : Time) :
    (s.retryAll link now due).2.peers = due ∧
      (s.retryAll link now due).1.timers =
        s.timers.run (due.flatMap fun q => (s.retryAll link now due).1.retimed now q true) := by
  induction due generalizing s with
  | nil => exact ⟨rfl, rfl⟩
  | cons e due ih =>
    have hnodup : (e :: due).Nodup := (List.nodup_append.1 (h.timers.nodup_iff.2 h.nodup)).2.1
    have hnext : Sound I limit due (s.retry link now e).1 := h.retry k link
    obtain ⟨hturned, hone⟩ := h.turned_retry link now
    obtain ⟨hpeers, htimers⟩ := ih hnext
    have hrest : Untouched e (s.retry link now e).1
        ((s.retry link now e).1.retryAll link now due).1 :=
      (hnext.untouched_retryAll k (List.nodup_cons.1 hnodup).1 link).1
    have hlast := retimed_congr hrest.find?_eq now true
    rw [Server.retryAll]
    dsimp only
    constructor
    · rw [Effects.peers_append, hone, hpeers]
      rfl
    · rw [List.flatMap_cons, Deadlines.run_append, hlast, htimers, hturned.timers_eq, decide_true]

theorem Sound.timers_step (k : Storage.Kept (fun _ => True) (fun _ => True) I)
    (h : Sound I limit [] s) (event : Event) :
    (s.step event).1.timers = s.timers.run (s.timerCalls event) := by
  cases event with
  | datagram link peer bytes now => exact (h.turned_receive link bytes).timers_eq
  | packet peer p now =>
    have brings : (Event.packet peer p now).packetFrom? peer = some p := if_pos rfl
    exact (h.turned_route brings rfl (if_pos rfl)).timers_eq
  | expiry link now =>
    obtain ⟨hpeers, htimers⟩ := (h.taken now).turned_retryAll k link now
    change (s.expire link now).2.peers = (s.timers.expire now).1 at hpeers
    change _ = s.timers.run (.expire now :: (s.expire link now).2.peers.flatMap _)
    rw [hpeers]
    exact htimers
  | shutdown => rfl

theorem Sound.timers_run (k : Storage.Kept (fun _ => True) (fun _ => True) I)
    (h : Sound I limit [] s) (events : List Event) :
    (s.run events).1.timers = s.timers.run (s.allTimerCalls events) := by
  induction events generalizing s with
  | nil => rfl
  | cons event events ih =>
    rw [run_cons, allTimerCalls, Deadlines.run_append, ← h.timers_step k event]
    exact ih (h.step k trivial event.named_trivial)

/-! What deadlines bring -/

/-- One retry step: as long as there are retries left, the last packet is sent again and a new
deadline is set; after that the peer is told of the end. -/
inductive RetryStep (q : Endpoint) (t : Transfer η) (now : Time) (after : Server σ η × Effects) :
    Prop
  | again (left : t.retries < t.maxRetries) (sent : after.2.packetsTo q = [t.lastPacket])
      (held : after.1.held q = (some (t.retried 1), some (now + .seconds t.timeout)))
  | ended (spent : t.maxRetries ≤ t.retries)
      (sent : after.2.packetsTo q = [Packet.bytes (.error .notDefined (ascii "timeout"))])
      (held : after.1.held q = (none, none))

theorem Sound.retryStep (k : Storage.Kept (fun _ => True) (fun _ => True) I)
    (h : Sound I limit [] s) (hq : q ∈ (s.timers.expire now).1) (link : Link) :
    ∃ t, s.table.find? q = some t ∧ RetryStep q t now (s.expire link now) := by
  obtain ⟨m, t, ht, hrunning, hm, -, hafter, hsent⟩ := h.turn_expire k hq link
  obtain ⟨file, hp⟩ := hrunning.phase
  have hheld := hafter.held
  rw [held_adopt_self hm] at hheld
  refine ⟨t, ht, ?_⟩
  rcases Nat.lt_or_ge t.retries t.maxRetries with hr | hr
  · obtain ⟨log, hresend⟩ := Transfer.onTimeout_resend hp hr m.store
    have hlast : t.lastPacket.isEmpty = false := by simpa using hrunning.lastPacket
    rw [hresend] at hheld hsent
    refine .again hr (by simpa [Action.packet, hlast] using hsent) ?_
    exact hheld.trans (by simp [seenAfter, Action.packet, hlast, Transfer.retried])
  · obtain ⟨log, habort⟩ := Transfer.onTimeout_abort hp hr m.store
    rw [habort] at hheld hsent
    exact .ended hr (by simpa [Action.packet] using hsent) hheld

structure Settled (a : Agenda) (now : Time) (s : Server σ η) (after : Server σ η × Effects) :
    Prop where
  deadlines : ∀ q, s.timers.deadline? q = (a.mark? q).map Mark.time
  /-- One packet for each peer whose deadline has come, and none for any other. -/
  due : a.Due now after.2.peers
  steps : ∀ q u, s.timers.deadline? q = some u → u ≤ now →
    ∃ t, s.table.find? q = some t ∧ RetryStep q t now after
  others : ∀ q, (∀ u, s.timers.deadline? q = some u → now < u) → Untouched q s after.1

/-- Every transfer that is about to be retried waits for a second at least, and the clock has a
time for the end of that. -/
def Room (now : Time) (s : Server σ η) : Prop :=
  ∀ q t u, s.table.find? q = some t → s.timers.deadline? q = some u → u ≤ now →
    t.retries < t.maxRetries → 1 ≤ t.timeout ∧ now.Fits t.timeout

structure Quiet (now : Time) (s : Server σ η) : Prop where
  later : ∀ q u, s.timers.deadline? q = some u → now < u
  next : ∀ u, s.timers.next? = some u → now < u
  once : ∀ link, s.expire link now = (s, {})

theorem expire_of_next?_lt (h : ∀ u, s.timers.next? = some u → now < u) (link : Link) :
    s.expire link now = (s, {}) := by
  unfold expire
  rw [Deadlines.expire_of_next?_lt h]
  rfl

theorem Sound.later (k : Storage.Kept (fun _ => True) (fun _ => True) I)
    (h : Sound I limit [] s) (hroom : s.Room now) (link : Link) {u : Time}
    (hu : (s.expire link now).1.timers.deadline? q = some u) : now < u := by
  by_cases hq : q ∈ (s.timers.expire now).1
  · obtain ⟨before, hbefore, hle⟩ := Deadlines.mem_expire.1 hq
    obtain ⟨t, ht, hstep⟩ := h.retryStep k hq link
    cases hstep with
    | again left sent held =>
      obtain ⟨hone, hfits⟩ := hroom q t before ht hbefore hle left
      have hdeadline := (congrArg Prod.snd held).symm.trans hu
      rw [← Option.some.inj hdeadline]
      exact Time.lt_add_seconds hone hfits
    | ended spent sent held => exact nomatch (congrArg Prod.snd held).symm.trans hu
  · obtain ⟨hsame, -⟩ := h.untouched_expire k hq link
    rw [hsame.deadline?_eq] at hu
    exact Int64.not_le.1 fun hle => hq (Deadlines.mem_expire.2 ⟨u, hu, hle⟩)

theorem Sound.quiet_expire (k : Storage.Kept (fun _ => True) (fun _ => True) I)
    (h : Sound I limit [] s) (hroom : s.Room now) (link : Link) :
    (s.expire link now).1.Quiet now := by
  have hnext : ∀ u, (s.expire link now).1.timers.next? = some u → now < u := fun u hu => by
    obtain ⟨q, hq⟩ := (Deadlines.next?_eq_some_iff.1 hu).1
    exact h.later k hroom link hq
  exact ⟨fun q u hu => h.later k hroom link hu, hnext, expire_of_next?_lt hnext⟩

/-- All deadlines that have come are dealt with at once, each of them once, and in the order in
which they were set if they are equal. Nothing is left to be done after that, unless a new deadline
lies beyond the last time of the clock. -/
theorem deadlines_settled (store : σ) (limits : Limits) (capacity : Nat) (events : List Event)
    (link : Link) (now : Time) :
    let first : Server σ η := new store limits capacity
    let s := (first.run events).1
    Settled (Agenda.run {} (first.allTimerCalls events)) now s (s.expire link now) ∧
      (s.Room now → (s.expire link now).1.Quiet now) := by
  intro first s
  have k := Storage.Kept.always σ η
  have hfirst : Sound (fun (_ : List η) (_ : σ) => True) capacity [] first := .new trivial
  have h : Sound (fun (_ : List η) (_ : σ) => True) capacity [] s := hfirst.run_always k events
  have hshown : Agenda.Shown (Agenda.run {} (first.allTimerCalls events)) s.timers := by
    have htimers : s.timers = Deadlines.run ∅ (first.allTimerCalls events) :=
      hfirst.timers_run k events
    rw [htimers]
    exact Agenda.Shown.empty.run _
  have hpeers : (s.expire link now).2.peers = (s.timers.expire now).1 :=
    ((h.taken now).turned_retryAll k link now).1
  exact ⟨{
    deadlines := hshown.deadline?
    due := hpeers ▸ hshown.due now
    steps := fun q u hu hle => h.retryStep k (Deadlines.mem_expire.2 ⟨u, hu, hle⟩) link
    others := fun q hq => (h.untouched_expire k (fun hmem => by
      obtain ⟨u, hu, hle⟩ := Deadlines.mem_expire.1 hmem
      exact Int64.not_le.2 (hq u hu) hle) link).1 },
    fun hroom => h.quiet_expire k hroom link⟩

theorem deadlines_settled_three_due :
    let write (name : Bytes) (options : List OptionField) : Packet :=
      .request .write ⟨name, octetMode, options⟩
    let link : Link := fun _ _ => true
    let first : Server Memory.Files Memory.Handle := new [] { retries := 1 } 4
    let events := [fromPort 4000 (write (ascii "e") []) (.seconds 0), .expiry link (.seconds 5),
      fromPort 4002 (write (ascii "f") []) (.seconds 5),
      fromPort 4001 (write (ascii "g") []) (.seconds 5),
      fromPort 4003 (write (ascii "h") [⟨ascii "timeout", ascii "255"⟩]) (.seconds 5)]
    let s := (first.run events).1
    let after := s.expire link (.seconds 100)
    s.Room (.seconds 100) ∧
    Settled (Agenda.run {} (first.allTimerCalls events)) (.seconds 100) s after ∧
    after.1.Quiet (.seconds 100) ∧
    after.2.peers.map (·.port) = [4000, 4002, 4001] ∧
    after.1.timers.queue.map (fun x => (x.time, x.peer.port)) =
      [(.seconds 105, 4002), (.seconds 105, 4001), (.seconds 260, 4003)] := by
  intro write link first events s after
  have hentries : ∀ f ∈ s.table.entries, 1 ≤ f.2.timeout ∧ Time.Fits (.seconds 100) f.2.timeout := by
    decide +kernel
  have hroom : s.Room (.seconds 100) := fun q t _ ht _ _ _ =>
    hentries _ (TransferTable.mem_of_find? ht)
  let store : Memory.Files := []
  obtain ⟨hsettled, hquiet⟩ :=
    deadlines_settled (η := Memory.Handle) store { retries := 1 } 4 events link (.seconds 100)
  exact ⟨hroom, hsettled, hquiet hroom, by decide +kernel, by decide +kernel⟩

/-- Less than five seconds before the last time of the clock, a new deadline lies in the past, and
the transfer is retried again at the same time. -/
theorem not_quiet_near_last_time :
    ¬ ∀ (store : Memory.Files) (limits : Limits) (capacity : Nat) (events : List Event)
      (link : Link) (now : Time),
      let first : Server Memory.Files Memory.Handle := new store limits capacity
      let s := (first.run events).1
      (∀ q t, s.table.find? q = some t → 1 ≤ t.timeout) →
        (∀ u, (s.expire link now).1.timers.next? = some u → now < u) ∧
          (s.expire link now).1.expire link now = ((s.expire link now).1, {}) := by
  intro hall
  let link : Link := fun _ _ => true
  let first : Server Memory.Files Memory.Handle := new [] {} 1
  let events := [fromPort 4000 (.request .write ⟨ascii "f", octetMode, []⟩) (.seconds 9223372031)]
  let after := ((first.run events).1.expire link (.seconds 9223372036)).1
  have hentries : ∀ f ∈ (first.run events).1.table.entries, 1 ≤ f.2.timeout := by decide +kernel
  have hagain : (after.expire link (.seconds 9223372036)).2.peers = [⟨2130706433, 4000⟩] := by
    decide +kernel
  obtain ⟨-, honce⟩ := hall [] {} 1 events link (.seconds 9223372036) fun q t ht =>
    hentries _ (TransferTable.mem_of_find? ht)
  have hnone := congrArg (fun x => x.2.peers) honce
  cases hagain.symm.trans hnone

end Server
end Tftp
