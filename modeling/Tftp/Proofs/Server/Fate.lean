import Mathlib.Data.List.Induction
import Tftp.Proofs.Server.Retries
import Tftp.Proofs.Transfer.Course

namespace Tftp

def Packet.meaning? : Packet → Option Transfer.Event
  | .request .. => none
  | .ack block => some (.ack block)
  | .data block payload => some (.data block payload)
  | .error code message => some (.error code message)
  | .optionAck _ => some (.illegal (ascii "OACK received from a client"))

def Action.packets (a : Action) : List Bytes := if a.packet.isEmpty then [] else [a.packet]

namespace Server

variable {σ η : Type}

/-- When an event comes. Only a shutdown does not look at the clock. -/
def Event.time? : Event → Option Time
  | .datagram _ _ _ now => some now
  | .packet _ _ now => some now
  | .expiry _ now => some now
  | .shutdown => none

def Event.packetFrom? (q : Endpoint) : Event → Option Packet
  | .datagram _ peer bytes _ => if peer = q then (Packet.decode bytes).toOption else none
  | .packet peer p _ => if peer = q then some p else none
  | .expiry .. => none
  | .shutdown => none

def Event.meaning? (q : Endpoint) (s : Server σ η) (event : Event) : Option Transfer.Event :=
  if event.fires q s then some .timeout else (event.packetFrom? q).bind Packet.meaning?

theorem Event.asks_iff {q : Endpoint} {event : Event} :
    event.Asks q ↔ ∃ d r, event.packetFrom? q = some (.request d r) := by
  cases event with
  | datagram link peer bytes now =>
    by_cases hq : peer = q
    · simp only [Asks, packetFrom?, hq, true_and, if_true]
      cases Packet.decode bytes <;> simp [Except.toOption]
    · simp [Asks, packetFrom?, hq]
  | packet peer p now =>
    by_cases hq : peer = q <;> simp [Asks, packetFrom?, hq]
  | expiry | shutdown => simp [Asks, packetFrom?]

instance (q : Endpoint) (event : Event) : Decidable (event.Asks q) :=
  match h : event.packetFrom? q with
  | some (.request d r) => .isTrue (Event.asks_iff.2 ⟨d, r, h⟩)
  | some (.ack _) | some (.data ..) | some (.error ..) | some (.optionAck _) | none =>
    .isFalse fun ha => by
      obtain ⟨d, r, hr⟩ := Event.asks_iff.1 ha
      cases h.symm.trans hr

theorem dispatch_eq_of_meaning [Storage σ η] {p : Packet} {reaction : Transfer.Event}
    (h : p.meaning? = some reaction) (t : Transfer η) (store : σ) :
    dispatch t store p = t.react store reaction := by
  cases p <;> cases h <;> rfl

variable [Storage σ η]

/-- The packets that an event has for a peer. Those of a packet that is only routed are handed back
and not sent. -/
def replies (q : Endpoint) (s : Server σ η) : Event → List Bytes
  | .packet peer p now => if peer = q then (s.route peer p now).action.packets else []
  | event => (s.step event).2.packetsTo q

def begun (q : Endpoint) (d : Direction) (r : Request) (limits : Limits) (file : η) (store : σ) :
    Step σ η :=
  (Transfer.new q d r.filename file (negotiate r.options).1 limits).start store

/-- What an event has made of a peer that was sent some packets in it. -/
inductive Fate (q : Endpoint) (s : Server σ η) (event : Event) (s' : Server σ η)
    (sent : List Bytes) : Prop
  | unheeded (held : s'.held q = s.held q) (sent : sent = [])
  | refused (asks : event.Asks q) (held : s'.held q = s.held q)
  | opened (now : Time) (d : Direction) (r : Request) (file : η) (store : σ) (packet : Bytes)
      (time : event.time? = some now) (asks : event.Asks q) (found : s.table.find? q = none)
      (action : (begun q d r s.limits file store).action = .opened packet)
      (held : s'.held q = (some (begun q d r s.limits file store).transfer,
        some (now + .seconds (begun q d r s.limits file store).transfer.timeout)))
      (sent : sent = [packet])
  | reacted (now : Time) (t : Transfer η) (file : η) (store : σ) (reaction : Transfer.Event)
      (packet : Bytes) (time : event.time? = some now)
      (meaning : event.meaning? q s = some reaction) (found : s.table.find? q = some t)
      (phase : t.phase = .transferring file)
      (action : (t.react store reaction).action = .reply packet)
      (held : s'.held q = (some (t.react store reaction).transfer,
        some (now + .seconds (t.react store reaction).transfer.timeout)))
      (sent : sent = [packet])
  | ended (held : s'.held q = (none, none))

variable {I : List η → σ → Prop} {limit : Nat} {s : Server σ η} {q : Endpoint} {event : Event}
  {now : Time}

theorem Fate.adopt {m : Server σ η} {t : Transfer η} {file : η} {reaction : Transfer.Event}
    (time : event.time? = some now) (meaning : event.meaning? q s = some reaction)
    (found : s.table.find? q = some t) (running : t.Running)
    (phase : t.phase = .transferring file) (hm : m.table.find? q = some t)
    (quiet : (t.react m.store reaction).action = .noReply → m.held q = s.held q) {s' : Server σ η}
    (held : s'.held q = (m.adopt q (t.react m.store reaction) now).held q) :
    Fate q s event s' (t.react m.store reaction).action.packets := by
  rw [held_adopt_self hm] at held
  have outcome : Transfer.Outcome t (t.react m.store reaction) := running.react reaction
  cases outcome with
  | unmoved action transfer =>
    refine .unheeded ?_ (by rw [action]; rfl)
    rw [held, ← quiet action, action, transfer, Server.held, hm]
    rfl
  | replied packet action sent =>
    have hne : packet.isEmpty = false := by simpa using sent
    refine .reacted now t file m.store reaction packet time meaning found phase action ?_ ?_
    · simpa [seenAfter, action, Action.packet, hne] using held
    · simp [Action.packets, Action.packet, action, hne]
  | closed packet action =>
    exact .ended (by rw [held, action]; rfl)

theorem fate_openTransfer {d : Direction} {r : Request} (time : event.time? = some now)
    (asks : event.Asks q) (found : s.table.find? q = none) :
    Fate q s event (s.openTransfer q d r now).server
      (s.openTransfer q d r now).action.packets := by
  unfold Server.openTransfer
  split
  · exact .refused asks rfl
  · split
    · exact .refused asks rfl
    · rename_i file store _
      let t := Transfer.new q d r.filename file (negotiate r.options).1 s.limits
      have hphase : t.phase = .negotiating file := rfl
      rcases Transfer.outcome_start store hphase (Nat.zero_le _) with
        ⟨packet, ha, hp, -⟩ | ⟨packet, ha, -⟩
      · have hpeer : (t.start store).transfer.peer = q :=
          congrArg Transfer.Terms.peer (Transfer.terms_start t store)
        dsimp only
        rw [ha]
        dsimp only
        split
        · rename_i table hi
          refine .opened now d r file store packet time asks found ha ?_ ?_
          · have hfind : table.find? (t.start store).transfer.peer =
                some (t.start store).transfer := TransferTable.find?_insert?_self hi
            rw [hpeer] at hfind
            exact Prod.ext hfind (Deadlines.deadline?_arm_self ..)
          · have hne : packet.isEmpty = false := by simpa using hp
            simp [Action.packets, Action.packet, hne]
        · exact .refused asks rfl
      · dsimp only
        rw [ha]
        exact .refused asks rfl

theorem Sound.fate_route (h : Sound I limit [] s) {p : Packet} (time : event.time? = some now)
    (brings : event.packetFrom? q = some p) :
    Fate q s event (s.route q p now).server (s.route q p now).action.packets := by
  have hfires : event.fires q s = false := by
    cases event with
    | expiry => cases brings
    | datagram | packet | shutdown => rfl
  unfold Server.route
  split
  · exact .refused (Event.asks_iff.2 ⟨_, _, brings⟩) rfl
  · rename_i p _ _ t hf hp
    have hfiled := h.filed _ (TransferTable.mem_of_find? hf)
    obtain ⟨file, hphase⟩ := hfiled.running.phase
    have hmeaning : ∃ reaction, p.meaning? = some reaction := by
      cases p with
      | request d r => exact absurd rfl (hp d r)
      | ack | data | error | optionAck => exact ⟨_, rfl⟩
    obtain ⟨reaction, hmeaning⟩ := hmeaning
    have hevent : event.meaning? q s = some reaction := by
      rw [Event.meaning?, hfires, brings]
      exact hmeaning
    rw [dispatch_eq_of_meaning hmeaning]
    exact .adopt time hevent hf hfiled.running hphase hf (fun _ => rfl) rfl
  · rename_i hf
    exact fate_openTransfer time (Event.asks_iff.2 ⟨_, _, brings⟩) hf
  · exact .unheeded rfl rfl

theorem Sound.fate_fire (k : Storage.Kept (fun _ => True) (fun _ => True) I)
    (h : Sound I limit [] s) (hf : event.fires q s) :
    Fate q s event (s.step event).1 ((s.step event).2.packetsTo q) := by
  cases event with
  | datagram | packet | shutdown => cases hf
  | expiry link now =>
    obtain ⟨m, t, hfound, hrunning, hm, -, hafter, hsent⟩ :=
      h.turn_expire k (mem_expire_iff_fires.2 hf) link
    obtain ⟨file, hphase⟩ := hrunning.phase
    have hmeaning : (Event.expiry link now).meaning? q s = some .timeout := if_pos hf
    have hpackets : ((s.step (.expiry link now)).2.packetsTo q) =
        (t.react m.store .timeout).action.packets := hsent
    rw [hpackets]
    exact .adopt rfl hmeaning hfound hrunning hphase hm
      (fun hq => absurd hq hrunning.onTimeout.2) hafter.held

theorem Sound.fate (k : Storage.Kept (fun _ => True) (fun _ => True) I)
    (h : Sound I limit [] s) (q : Endpoint) (event : Event) :
    Fate q s event (s.step event).1 (s.replies q event) := by
  by_cases hc : event.concerns q
  · cases event with
    | datagram link peer bytes now =>
      cases of_decide_eq_true hc
      change Fate q s _ (s.receive link q bytes now).1 ((s.receive link q bytes now).2.packetsTo q)
      unfold receive
      split
      · exact .unheeded rfl rfl
      · rename_i p hp
        have hbrings : (Event.datagram link q bytes now).packetFrom? q = some p := by
          simp [Event.packetFrom?, hp, Except.toOption]
        dsimp only
        rw [packetsTo_append, packetsTo_deliver]
        exact h.fate_route rfl hbrings
    | packet peer p now =>
      cases of_decide_eq_true hc
      have hreplies : s.replies q (.packet q p now) = (s.route q p now).action.packets := if_pos rfl
      rw [hreplies]
      exact h.fate_route rfl (if_pos rfl)
    | expiry link now =>
      by_cases hf : (Event.expiry link now).fires q s
      · exact h.fate_fire k hf
      · obtain ⟨hu, hsent⟩ := h.untouched_expire k (mt mem_expire_iff_fires.1 hf) link
        exact .unheeded hu.held hsent
    | shutdown => exact .ended rfl
  · obtain ⟨hu, hsent⟩ := h.untouched_step hc
    refine .unheeded hu.held ?_
    cases event with
    | packet peer p now => exact if_neg fun hp => hc (decide_eq_true hp)
    | datagram | expiry | shutdown => exact hsent

omit [Storage σ η] in
theorem limits_settle (a : Action) : (s.settle q a now).limits = s.limits := by
  unfold settle
  split
  · rfl
  · split
    · rfl
    · split <;> rfl

theorem limits_openTransfer (d : Direction) (r : Request) :
    (s.openTransfer q d r now).server.limits = s.limits := by
  unfold openTransfer
  split
  · rfl
  · split
    · rfl
    · dsimp only
      split
      · split <;> rfl
      · rfl

theorem limits_route (p : Packet) : (s.route q p now).server.limits = s.limits := by
  unfold route
  split
  · rfl
  · exact limits_settle _
  · exact limits_openTransfer _ _
  · rfl

theorem limits_retryAll (link : Link) (due : List Endpoint) :
    (s.retryAll link now due).1.limits = s.limits := by
  induction due generalizing s with
  | nil => rfl
  | cons e due ih =>
    have hretry : (s.retry link now e).1.limits = s.limits := by
      unfold retry
      split
      · rfl
      · exact limits_settle _
    exact ih.trans hretry

theorem limits_step (s : Server σ η) (event : Event) : (s.step event).1.limits = s.limits := by
  cases event with
  | datagram link peer bytes now =>
    change (s.receive link peer bytes now).1.limits = s.limits
    unfold receive
    split
    · rfl
    · exact limits_route _
  | packet peer p now => exact limits_route p
  | expiry link now => exact limits_retryAll (s := { s with timers := _ }) link _
  | shutdown => rfl

theorem limits_run (s : Server σ η) (events : List Event) : (s.run events).1.limits = s.limits := by
  induction events generalizing s with
  | nil => rfl
  | cons event events ih => exact (ih _).trans (limits_step s event)

theorem run_concat (s : Server σ η) (events : List Event) (event : Event) :
    (s.run (events ++ [event])).1 = ((s.run events).1.step event).1 := by
  rw [run_append]
  rfl

/-- What the latest event of a run has given, of all that have given something. -/
def latest {α : Type} (f : Server σ η → Event → Option α) : Server σ η → List Event → Option α
  | _, [] => none
  | s, event :: events => (latest f (s.step event).1 events).or (f s event)

theorem latest_concat {α : Type} (f : Server σ η → Event → Option α) (s : Server σ η)
    (events : List Event) (event : Event) :
    latest f s (events ++ [event]) = (f (s.run events).1 event).or (latest f s events) := by
  induction events generalizing s with
  | nil => simp [latest, Server.run]
  | cons e events ih => rw [List.cons_append, latest, ih, Option.or_assoc]; rfl

def greeting? (q : Endpoint) : Server σ η → List Event → Option Bytes :=
  latest fun s event =>
    if s.table.find? q = none ∧ (s.step event).1.table.find? q ≠ none then
      (s.replies q event).head?
    else none

def BegunWith (σ : Type) [Storage σ η] (q : Endpoint) (limits : Limits) (packet : Bytes)
    (t : Transfer η) : Prop :=
  ∃ d r file, ∃ store : σ, (begun q d r limits file store).action = .opened packet ∧
    t.terms = (begun q d r limits file store).transfer.terms ∧
    t.accepted = (begun q d r limits file store).transfer.accepted

theorem greeting?_concat_of_some {events : List Event} {t : Transfer η}
    (ht : (s.run events).1.table.find? q = some t) (event : Event) :
    greeting? q s (events ++ [event]) = greeting? q s events := by
  have hnot : ¬ ((s.run events).1.table.find? q = none ∧
      ((s.run events).1.step event).1.table.find? q ≠ none) := by simp [ht]
  rw [greeting?, latest_concat, if_neg hnot, Option.none_or]

theorem Sound.begunWith (k : Storage.Kept (fun _ => True) (fun _ => True) I)
    (h : Sound I limit [] s) (hq : s.table.find? q = none) (events : List Event)
    {t : Transfer η} (ht : (s.run events).1.table.find? q = some t) :
    ∃ packet, greeting? q s events = some packet ∧ BegunWith σ q s.limits packet t := by
  induction events using List.reverseRecOn generalizing t with
  | nil => exact nomatch hq.symm.trans ht
  | append_singleton events event ih =>
    have hs := h.run_always k events
    rw [run_concat] at ht
    cases hs.fate k q event with
    | unheeded held | refused _ held =>
      have hfind := (congrArg Prod.fst held).symm.trans ht
      rw [greeting?_concat_of_some hfind]
      exact ih hfind
    | opened now d r file store packet time asks found action held sent =>
      have hnew : (s.run events).1.table.find? q = none ∧
          ((s.run events).1.step event).1.table.find? q ≠ none := ⟨found, by simp [ht]⟩
      cases (congrArg Prod.fst held).symm.trans ht
      rw [limits_run] at action
      refine ⟨packet, ?_, d, r, file, store, action, ?_⟩
      · rw [greeting?, latest_concat, if_pos hnew, sent]
        rfl
      · rw [limits_run]
        exact ⟨rfl, rfl⟩
    | reacted now u file store reaction packet time meaning found phase action held sent =>
      cases (congrArg Prod.fst held).symm.trans ht
      obtain ⟨first, hgreeting, d, r, file', store', hfirst, hterms, haccepted⟩ := ih found
      have hkeep := (Transfer.course_react phase store reaction).accepted action
      rw [greeting?_concat_of_some found]
      exact ⟨first, hgreeting, d, r, file', store', hfirst,
        (Transfer.terms_react u store reaction).trans hterms, hkeep.trans haccepted⟩
    | ended held => exact nomatch (congrArg Prod.fst held).symm.trans ht

end Server
end Tftp
