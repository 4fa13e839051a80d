import Tftp.Proofs.Server.Fate

namespace Tftp
namespace Server

variable {σ η : Type}

/-- The peer of a transfer sends a stale acknowledgement, another request, or nothing that can be
read. -/
def Event.Spares (q : Endpoint) (t : Transfer η) : Event → Prop
  | .datagram _ peer bytes _ =>
    peer = q ∧ ∀ p ∈ (Packet.decode bytes).toOption, t.Ignores p ∨ p.meaning? = none
  | .packet peer p _ => peer = q ∧ (t.Ignores p ∨ p.meaning? = none)
  | .expiry .. => False
  | .shutdown => False

variable [Storage σ η]

/-- The transfer of a peer says something. A request is answered by the transfer that it starts, and
by no other. -/
def Speaks (q : Endpoint) (s : Server σ η) (event : Event) : Prop :=
  s.replies q event ≠ [] ∧
    (event.Asks q → s.table.find? q = none ∧ (s.step event).1.table.find? q ≠ none)

instance (q : Endpoint) (s : Server σ η) (event : Event) : Decidable (s.Speaks q event) :=
  inferInstanceAs (Decidable (_ ∧ (_ → _ ∧ _)))

def lastSpoke? (q : Endpoint) : Server σ η → List Event → Option Time :=
  latest fun s event => if s.Speaks q event then event.time? else none

variable {I : List η → σ → Prop} {limit : Nat} {s : Server σ η} {q : Endpoint} {event : Event}
  {t : Transfer η}

omit [Storage σ η] in
theorem Event.not_asks_of_meaning {reaction : Transfer.Event}
    (h : event.meaning? q s = some reaction) : ¬ event.Asks q := by
  intro ha
  obtain ⟨d, r, hr⟩ := Event.asks_iff.1 ha
  rw [Event.meaning?, hr] at h
  cases event with
  | expiry | shutdown => cases hr
  | datagram | packet => cases h

theorem Sound.deadline_step (k : Storage.Kept (fun _ => True) (fun _ => True) I)
    (h : Sound I limit [] s) (ht : (s.step event).1.table.find? q = some t) :
    if s.Speaks q event then
      ∃ now, event.time? = some now ∧
        (s.step event).1.timers.deadline? q = some (now + .seconds t.timeout)
    else (s.step event).1.held q = s.held q := by
  cases h.fate k q event with
  | unheeded held sent =>
    rw [if_neg fun hs => hs.1 sent]
    exact held
  | refused asks held =>
    have hfind : s.table.find? q = some t := (congrArg Prod.fst held).symm.trans ht
    have hnone : ¬ s.Speaks q event := fun hs => by
      have := (hs.2 asks).1
      simp [hfind] at this
    rw [if_neg hnone]
    exact held
  | opened now d r file store packet time asks found action held sent =>
    rw [if_pos ⟨by simp [sent], fun _ => ⟨found, by simp [ht]⟩⟩]
    cases (congrArg Prod.fst held).symm.trans ht
    exact ⟨now, time, congrArg Prod.snd held⟩
  | reacted now u file store reaction packet time meaning found phase action held sent =>
    rw [if_pos ⟨by simp [sent], fun ha => absurd ha (Event.not_asks_of_meaning meaning)⟩]
    cases (congrArg Prod.fst held).symm.trans ht
    exact ⟨now, time, congrArg Prod.snd held⟩
  | ended held => exact nomatch (congrArg Prod.fst held).symm.trans ht

theorem Sound.deadline_run (k : Storage.Kept (fun _ => True) (fun _ => True) I)
    (h : Sound I limit [] s) (hq : s.table.find? q = none) (events : List Event)
    (ht : (s.run events).1.table.find? q = some t) :
    ∃ last, lastSpoke? q s events = some last ∧
      (s.run events).1.timers.deadline? q = some (last + .seconds t.timeout) := by
  -- by the last event of the run: it has set the deadline, or it has left it as it was
  induction events using List.reverseRecOn generalizing t with
  | nil => exact nomatch hq.symm.trans ht
  | append_singleton events event ih =>
    have hs := h.run_always k events
    rw [run_concat] at ht ⊢
    have hstep := hs.deadline_step k ht
    rw [lastSpoke?, latest_concat]
    split at hstep
    · rename_i hspeaks
      obtain ⟨now, htime, hdeadline⟩ := hstep
      rw [if_pos hspeaks, htime]
      exact ⟨now, rfl, hdeadline⟩
    · rename_i hsilent
      obtain ⟨last, hlast, hdeadline⟩ := ih ((congrArg Prod.fst hstep).symm.trans ht)
      rw [if_neg hsilent, Option.none_or]
      exact ⟨last, hlast, (congrArg Prod.snd hstep).trans hdeadline⟩

theorem BegunWith.terms_new {limits : Limits} {packet : Bytes} (h : BegunWith σ q limits packet t) :
    ∃ (d : Direction) (r : Request) (file : η),
      t.terms = (Transfer.new q d r.filename file (negotiate r.options).1 limits).terms ∧
        t.accepted.timeout? = (negotiate r.options).1.timeout? := by
  obtain ⟨d, r, file, store, -, hterms, haccepted⟩ := h
  let u : Transfer η := Transfer.new q d r.filename file (negotiate r.options).1 limits
  refine ⟨d, r, file, hterms.trans (Transfer.terms_start u store), ?_⟩
  have hoptions := Transfer.accepted_start (t := u) rfl store
  rw [haccepted, begun, hoptions, Transfer.timeout?_announceSize]
  rfl

theorem BegunWith.timeout_eq {limits : Limits} {packet : Bytes}
    (h : BegunWith σ q limits packet t) :
    t.timeout = (t.accepted.timeout?.map fun n => .ofNat n.toNat).getD limits.timeout := by
  obtain ⟨d, r, file, hterms, haccepted⟩ := h.terms_new
  rw [haccepted]
  exact congrArg Transfer.Terms.timeout hterms

theorem BegunWith.maxRetries_eq {limits : Limits} {packet : Bytes}
    (h : BegunWith σ q limits packet t) : t.maxRetries = limits.retries := by
  obtain ⟨d, r, file, hterms, -⟩ := h.terms_new
  exact congrArg Transfer.Terms.maxRetries hterms

theorem timers_route (hq : s.table.find? q = some t) (hp : ∃ file, t.phase = .transferring file)
    {p : Packet} (h : t.Ignores p ∨ p.meaning? = none) (now : Time) :
    (s.route q p now).server.timers = s.timers := by
  obtain ⟨file, hp⟩ := hp
  cases p with
  | request d r => simp only [Server.route, hq]
  | data | error | optionAck => rcases h with h | h <;> cases h
  | ack block =>
    obtain ⟨hread, hb⟩ : t.direction = .read ∧ block ≠ t.block := by
      rcases h with h | h
      · exact h
      · cases h
    obtain ⟨log, hstale⟩ := Transfer.onAck_stale hp hread hb s.store
    simp only [Server.route, hq, dispatch, hstale]
    rfl

theorem timers_spared (hq : s.table.find? q = some t) (hp : ∃ file, t.phase = .transferring file)
    (he : event.Spares q t) : (s.step event).1.timers = s.timers := by
  cases event with
  | datagram link peer bytes now =>
    obtain ⟨rfl, he⟩ := he
    change (s.receive link peer bytes now).1.timers = s.timers
    unfold receive
    split
    · rfl
    · rename_i p hd
      exact timers_route hq hp (he p (by rw [hd]; rfl)) now
  | packet peer p now =>
    obtain ⟨rfl, he⟩ := he
    exact timers_route hq hp he now
  | expiry | shutdown => exact he.elim

structure Timely (first : Server σ η) (events : List Event) : Prop where
  timeout : ∀ q t, (first.run events).1.table.find? q = some t →
    t.timeout = (t.accepted.timeout?.map fun n => .ofNat n.toNat).getD first.limits.timeout
  deadline : ∀ q t, (first.run events).1.table.find? q = some t →
    ∃ last, lastSpoke? q first events = some last ∧
      (first.run events).1.timers.deadline? q = some (last + .seconds t.timeout)
  unarmed : ∀ q, (first.run events).1.table.find? q = none →
    (first.run events).1.timers.deadline? q = none
  spared : ∀ q t event, (first.run events).1.table.find? q = some t → event.Spares q t →
    ((first.run events).1.step event).1.timers = (first.run events).1.timers
  next : ∀ time, (first.run events).1.timers.next? = some time ↔
    (∃ q t last, (first.run events).1.table.find? q = some t ∧
      lastSpoke? q first events = some last ∧ time = last + .seconds t.timeout) ∧
    ∀ q t last, (first.run events).1.table.find? q = some t →
      lastSpoke? q first events = some last → time ≤ last + .seconds t.timeout
  none : (first.run events).1.timers.next? = none ↔ (first.run events).1.table.size = 0

/-- Deadlines follow what the transfers say, at any time and whatever comes. -/
theorem deadlines_track_packets (store : σ) (limits : Limits) (capacity : Nat)
    (events : List Event) : Timely (new store limits capacity : Server σ η) events := by
  have k := Storage.Kept.always σ η
  have hnew : Sound (fun (_ : List η) (_ : σ) => True) capacity [] (new store limits capacity) :=
    .new trivial
  have h := hnew.run_always k events
  have hdeadline := fun q (t : Transfer η) => hnew.deadline_run (q := q) (t := t) k rfl events
  have hunarmed := fun q => h.deadline?_eq_none (q := q)
  -- whoever has a deadline has a transfer, and its deadline is the one that follows from it
  have harmed : ∀ q u, ((new store limits capacity).run events).1.timers.deadline? q = some u ↔
      ∃ t last, ((new store limits capacity).run events).1.table.find? q = some t ∧
        lastSpoke? q (new store limits capacity) events = some last ∧
          u = last + .seconds t.timeout := by
    intro q u
    constructor
    · intro hu
      cases ht : ((new store limits capacity).run events).1.table.find? q with
      | none => exact nomatch (hunarmed q ht).symm.trans hu
      | some t =>
        obtain ⟨last, hlast, hd⟩ := hdeadline q t ht
        exact ⟨t, last, rfl, hlast, Option.some.inj (hu.symm.trans hd)⟩
    · rintro ⟨t, last, ht, hlast, rfl⟩
      obtain ⟨last', hlast', hd⟩ := hdeadline q t ht
      cases hlast.symm.trans hlast'
      exact hd
  exact {
    timeout := fun q t ht => by
      obtain ⟨packet, -, hbegun⟩ := hnew.begunWith k rfl events ht
      exact hbegun.timeout_eq
    deadline := hdeadline
    unarmed := hunarmed
    spared := fun q t event ht he =>
      timers_spared ht (h.filed _ (TransferTable.mem_of_find? ht)).running.phase he
    next := fun time => by
      rw [Deadlines.next?_eq_some_iff]
      simp only [harmed]
      exact and_congr_right fun _ => ⟨fun hl q t last ht hlast => hl q _ ⟨t, last, ht, hlast, rfl⟩,
        fun hl q u ⟨t, last, ht, hlast, hu⟩ => hu ▸ hl q t last ht hlast⟩
    none := by
      rw [Deadlines.next?_eq_none_iff, ← TransferTable.size_endpoints,
        ← h.timers_perm.length_eq, Deadlines.size_endpoints] }

end Server
end Tftp
