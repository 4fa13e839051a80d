import Mathlib.Tactic.Linarith
import Mathlib.Tactic.Positivity
import Tftp.Proofs.Server.Timers

namespace Tftp

variable {σ η : Type}

namespace Transfer

/-- A deadline that comes after no more than the retries that a transfer has made, unless it waits
for less than no time. -/
def Covers (t : Transfer η) (since deadline : Time) : Prop :=
  0 ≤ t.timeout →
    deadline.toInt ≤ since.toInt + (t.retries + 1) * (t.timeout.toInt * 1000000000)

def strays (t : Transfer η) : Event → Bool
  | .data block _ => t.direction = .write ∧ block ≠ t.expected
  | .start | .ack _ | .error .. | .timeout | .illegal _ => false

theorem Covers.rearmed (t : Transfer η) (now : Time) :
    t.Covers now (now + .seconds t.timeout) := by
  intro h
  have htimeout : 0 ≤ t.timeout.toInt := Int64.le_iff_toInt_le.1 h
  have hretries : 0 ≤ (t.retries : Int) * (t.timeout.toInt * 1000000000) := by positivity
  have hsum := now.toInt_add_seconds_le h
  linarith

theorem Covers.of_retries_le {t : Transfer η} {since deadline : Time} {limit : Nat}
    (h : t.Covers since deadline) (htimeout : 0 ≤ t.timeout) (hr : t.retries ≤ limit) :
    deadline.toInt ≤ since.toInt + (limit + 1) * (t.timeout.toInt * 1000000000) := by
  have hpositive : 0 ≤ t.timeout.toInt := Int64.le_iff_toInt_le.1 htimeout
  have hle : (t.retries + 1 : Int) * (t.timeout.toInt * 1000000000) ≤
      (limit + 1) * (t.timeout.toInt * 1000000000) := by
    gcongr
  exact Int.le_trans (h htimeout) (Int.add_le_add_left hle _)

end Transfer

namespace Server

def OnTime (s : Server σ η) (now : Time) : Prop := ∀ deadline ∈ s.timers.next?, now ≤ deadline

-- not by going through all times of the clock
instance (s : Server σ η) (now : Time) : Decidable (s.OnTime now) :=
  Option.decidableForallMem s.timers.next?

variable [Storage σ η]

/-- No event comes later than a deadline that it finds. -/
def Punctual : Server σ η → List Event → Prop
  | _, [] => True
  | s, event :: events => (∀ now ∈ event.time?, s.OnTime now) ∧ Punctual (s.step event).1 events

instance decidablePunctual : (s : Server σ η) → (events : List Event) →
    Decidable (Punctual s events)
  | _, [] => .isTrue trivial
  | s, event :: events =>
    have := decidablePunctual (s.step event).1 events
    have : Decidable (∀ now ∈ event.time?, s.OnTime now) := Option.decidableForallMem event.time?
    inferInstanceAs (Decidable (_ ∧ _))

def advances (q : Endpoint) (s : Server σ η) (event : Event) : Bool :=
  ((s.step event).1.table.find? q).any fun t => (s.table.find? q).map (·.block) ≠ some t.block

/-- A writer is sent a block that it does not expect, and says again what it said last. -/
def reminds (q : Endpoint) (s : Server σ η) (event : Event) : Bool :=
  (s.table.find? q).any fun t =>
    (event.meaning? q s).any t.strays ∧ s.replies q event = [t.lastPacket]

def signs (q : Endpoint) (s : Server σ η) (event : Event) : Bool :=
  advances q s event || reminds q s event

def lastAdvance? (q : Endpoint) : Server σ η → List Event → Option Time :=
  latest fun s event => if advances q s event then event.time? else none

def lastSign? (q : Endpoint) : Server σ η → List Event → Option Time :=
  latest fun s event => if signs q s event then event.time? else none

variable {I : List η → σ → Prop} {limit : Nat} {s : Server σ η} {q : Endpoint} {event : Event}
  {t u : Transfer η} {now : Time}

theorem punctual_concat {events : List Event} :
    Punctual s (events ++ [event]) ↔
      Punctual s events ∧ ∀ now ∈ event.time?, (s.run events).1.OnTime now := by
  induction events generalizing s with
  | nil => simp [Punctual, Server.run]
  | cons e events ih => simp only [List.cons_append, Punctual, ih, and_assoc]; rfl

theorem not_advances (hu : s.table.find? q = some u) (ht : (s.step event).1.table.find? q = some t)
    (hb : t.block = u.block) : advances q s event = false := by
  simp [advances, hu, ht, hb]

theorem advances_of_ne (ht : (s.step event).1.table.find? q = some t)
    (hb : (s.table.find? q).map (·.block) ≠ some t.block) : advances q s event := by
  simpa [advances, ht] using hb

theorem reminds_iff (hu : s.table.find? q = some u) :
    reminds q s event ↔
      (event.meaning? q s).any u.strays ∧ s.replies q event = [u.lastPacket] := by
  simp [reminds, hu]

theorem not_reminds (hu : s.table.find? q = some u)
    (h : s.replies q event = [] ∨ event.Asks q) : reminds q s event = false := by
  rw [← Bool.not_eq_true, reminds_iff hu]
  rintro ⟨hstray, hreply⟩
  rcases h with hnone | hasks
  · simp [hnone] at hreply
  · obtain ⟨reaction, hmeaning, -⟩ := (Option.any_eq_true ..).1 hstray
    exact Event.not_asks_of_meaning hmeaning hasks

omit [Storage σ η] in
theorem Sound.held_eq (h : Sound I limit [] s) (ht : s.table.find? q = some t) :
    ∃ deadline, s.held q = (some t, some deadline) := by
  have harmed : s.timers.armed q := h.armed_iff.2 (by simp [ht])
  rw [Deadlines.armed_eq] at harmed
  obtain ⟨deadline, hd⟩ := Option.isSome_iff_exists.1 harmed
  exact ⟨deadline, by rw [held, ht, hd]⟩

omit [Storage σ η] in
theorem OnTime.le (hnow : s.OnTime now) {deadline : Time}
    (hd : s.timers.deadline? q = some deadline) : now ≤ deadline := by
  cases hn : s.timers.next? with
  | none =>
    have hsize := Deadlines.next?_eq_none_iff.1 hn
    rw [← Deadlines.size_endpoints, List.length_eq_zero_iff] at hsize
    have harmed : s.timers.deadline? q = none := Deadlines.deadline?_eq_none_iff.2 (by simp [hsize])
    exact nomatch harmed.symm.trans hd
  | some next =>
    have hleast := (Deadlines.next?_eq_some_iff.1 hn).2
    exact Int64.le_trans (hnow next hn) (hleast q deadline hd)

omit [Storage σ η] in
theorem fires_of_meaning (h : event.meaning? q s = some .timeout) : event.fires q s := by
  unfold Event.meaning? at h
  split at h
  · assumption
  · obtain ⟨p, -, hp⟩ := Option.bind_eq_some_iff.1 h
    cases p <;> cases hp

omit [Storage σ η] in
theorem OnTime.covers_retry {now since before : Time} (hnow : s.OnTime now)
    (hfires : event.fires q s) (htime : event.time? = some now)
    (hd : s.timers.deadline? q = some before) (hc : u.Covers since before) :
    { u with retries := u.retries + 1 }.Covers since (now + Time.seconds u.timeout) := by
  cases event with
  | datagram | packet | shutdown => cases hfires
  | expiry link time =>
    cases htime
    intro (htimeout : 0 ≤ u.timeout)
    have hle : now.toInt ≤ before.toInt := Int64.le_iff_toInt_le.1 (hnow.le hd)
    have hsum := now.toInt_add_seconds_le htimeout
    have hbefore := hc htimeout
    push_cast
    linarith

inductive Sign (q : Endpoint) (s : Server σ η) (event : Event) (t : Transfer η) (deadline : Time) :
    Prop
  | given (now : Time) (signs : signs q s event) (time : event.time? = some now)
      (covers : t.Covers now deadline) (advances : t.direction = .read → advances q s event)
  | missing (u : Transfer η) (before : Time) (signs : signs q s event = false)
      (held : s.held q = (some u, some before)) (direction : u.direction = t.direction)
      (covers : ∀ since, u.Covers since before → t.Covers since deadline)

theorem Sound.sign_of_held (h : Sound I limit [] s) (ht : (s.step event).1.table.find? q = some t)
    (held : (s.step event).1.held q = s.held q) (hsilent : s.replies q event = [] ∨ event.Asks q) :
    ∃ deadline, (s.step event).1.timers.deadline? q = some deadline ∧
      Sign q s event t deadline := by
  have hfind : s.table.find? q = some t := (congrArg Prod.fst held).symm.trans ht
  obtain ⟨deadline, hd⟩ := h.held_eq hfind
  refine ⟨deadline, congrArg Prod.snd (held.trans hd), .missing t deadline ?_ hd rfl fun _ hc => hc⟩
  simp [signs, not_advances hfind ht rfl, not_reminds hfind hsilent]

theorem Sign.of_advances (time : event.time? = some now) (h : advances q s event) :
    Sign q s event t (now + .seconds t.timeout) :=
  .given now (by simp [signs, h]) time (.rearmed t now) fun _ => h

theorem Sound.sign_of_reply (h : Sound I limit [] s) (time : event.time? = some now)
    (hnow : s.OnTime now) {file : η} {store : σ} {reaction : Transfer.Event} {packet : Bytes}
    (meaning : event.meaning? q s = some reaction) (found : s.table.find? q = some u)
    (phase : u.phase = .transferring file)
    (action : (u.react store reaction).action = .reply packet) (sent : s.replies q event = [packet])
    (ht : (s.step event).1.table.find? q = some (u.react store reaction).transfer) :
    Sign q s event (u.react store reaction).transfer
      (now + .seconds (u.react store reaction).transfer.timeout) := by
  cases Transfer.course_react phase store reaction with
  | unmoved haction | closed _ haction => cases haction.symm.trans action
  | resent timeout left _ transfer =>
    subst timeout
    obtain ⟨before, hd⟩ := h.held_eq found
    have hb : (u.react store .timeout).transfer.block = u.block := by rw [transfer]
    have hreminds : ¬ reminds q s event := by
      rw [reminds_iff found, meaning]
      simp [Transfer.strays]
    refine .missing u before (by simpa [signs, not_advances found ht hb] using hreminds) hd
      (by rw [transfer]) fun since hc => ?_
    rw [transfer]
    exact hnow.covers_retry (fires_of_meaning meaning) time (congrArg Prod.snd hd) hc
  | repeated block payload data direction stale haction transfer =>
    have hreminds : reminds q s event := by
      rw [reminds_iff found, meaning, sent, data]
      cases action.symm.trans haction
      simp [Transfer.strays, direction, stale]
    refine .given now (by simp [signs, hreminds]) time (.rearmed _ now) fun hread => ?_
    rw [transfer] at hread
    cases direction.symm.trans hread
  | sent payload file' _ _ _ _ _ transfer | stored payload file' _ _ _ _ _ transfer =>
    refine .of_advances time (advances_of_ne ht ?_)
    rw [found, transfer]
    simp [Transfer.advanced, Transfer.acknowledged, Transfer.stored, Transfer.expected]

theorem Sound.sign_step (k : Storage.Kept (fun _ => True) (fun _ => True) I)
    (h : Sound I limit [] s) (htime : ∀ now ∈ event.time?, s.OnTime now)
    (ht : (s.step event).1.table.find? q = some t) :
    ∃ deadline, (s.step event).1.timers.deadline? q = some deadline ∧
      Sign q s event t deadline := by
  cases h.fate k q event with
  | unheeded held sent => exact h.sign_of_held ht held (.inl sent)
  | refused asks held => exact h.sign_of_held ht held (.inr asks)
  | opened now d r file store packet time asks found action held sent =>
    cases (congrArg Prod.fst held).symm.trans ht
    exact ⟨_, congrArg Prod.snd held, .of_advances time (advances_of_ne ht (by simp [found]))⟩
  | reacted now u file store reaction packet time meaning found phase action held sent =>
    cases (congrArg Prod.fst held).symm.trans ht
    exact ⟨_, congrArg Prod.snd held,
      h.sign_of_reply time (htime now time) meaning found phase action sent ht⟩
  | ended held => exact nomatch (congrArg Prod.fst held).symm.trans ht

theorem Sound.sign_run (k : Storage.Kept (fun _ => True) (fun _ => True) I)
    (h : Sound I limit [] s) (hq : s.table.find? q = none) {events : List Event}
    (hp : Punctual s events) (ht : (s.run events).1.table.find? q = some t) :
    ∃ since deadline, lastSign? q s events = some since ∧
      (t.direction = .read → lastAdvance? q s events = some since) ∧
      (s.run events).1.timers.deadline? q = some deadline ∧ t.Covers since deadline := by
  -- by the last event of the run: it is the last sign, or the last sign is one before it
  induction events using List.reverseRecOn generalizing t with
  | nil => exact nomatch hq.symm.trans ht
  | append_singleton events event ih =>
    obtain ⟨hbefore, htime⟩ := punctual_concat.1 hp
    have hs := h.run_always k events
    rw [run_concat] at ht ⊢
    rw [lastSign?, lastAdvance?, latest_concat, latest_concat]
    obtain ⟨deadline, hd, hsign⟩ := hs.sign_step k htime ht
    cases hsign with
    | given now hsigns hnow hcovers hread =>
      refine ⟨now, deadline, ?_, fun hr => ?_, hd, hcovers⟩
      · rw [if_pos hsigns, hnow]
        rfl
      · rw [if_pos (hread hr), hnow]
        rfl
    | missing u before hsigns hu hdirection hmoved =>
      obtain ⟨since, old, hlast, hadvance, hold, hcovers⟩ := ih hbefore (congrArg Prod.fst hu)
      obtain ⟨hadvances, -⟩ := Bool.or_eq_false_iff.1 hsigns
      cases hold.symm.trans (congrArg Prod.snd hu)
      refine ⟨since, deadline, ?_, fun hr => ?_, hd, hmoved since hcovers⟩
      · rw [if_neg (by simp [hsigns]), Option.none_or]
        exact hlast
      · rw [if_neg (by simp [hadvances]), Option.none_or]
        exact hadvance (hdirection.trans hr)

/-- As long as no deadline is missed, a transfer in the table has given a sign of life within the
time that all its retries take. For a reader that is a block that it moved on by, or its beginning;
a writer may also have been sent a block that it did not expect. -/
theorem sign_within_retries (store : σ) (limits : Limits) (capacity : Nat) (events : List Event)
    (q : Endpoint) (t : Transfer η) (now : Time) :
    let first : Server σ η := new store limits capacity
    let s := (first.run events).1
    Punctual first events → s.OnTime now → s.table.find? q = some t → 0 ≤ t.timeout →
      ∃ since, now.toInt ≤
          since.toInt + (limits.retries + 1) * (t.timeout.toInt * 1000000000) ∧
        lastSign? q first events = some since ∧
        (t.direction = .read → lastAdvance? q first events = some since) := by
  intro first s hp hnow ht htimeout
  have k := Storage.Kept.always σ η
  have hfirst : Sound (fun (_ : List η) (_ : σ) => True) capacity [] first := .new trivial
  have hs := hfirst.run_always k events
  obtain ⟨since, deadline, hsign, hread, hd, hcovers⟩ := hfirst.sign_run k rfl hp ht
  obtain ⟨packet, -, hbegun⟩ := hfirst.begunWith k rfl events ht
  have hretries := (hs.filed _ (TransferTable.mem_of_find? ht)).running.retries
  rw [hbegun.maxRetries_eq] at hretries
  have hle : now.toInt ≤ deadline.toInt := Int64.le_iff_toInt_le.1 (hnow.le hd)
  exact ⟨since, Int.le_trans hle (hcovers.of_retries_le htimeout hretries), hsign, hread⟩

theorem sign_within_retries_stray_block :
    let store : Memory.Files := []
    let q : Endpoint := ⟨2130706433, 4000⟩
    let limits : Limits := { retries := 1 }
    let first : Server Memory.Files Memory.Handle := new store limits 2
    let events := [fromPort 4000 (.request .write ⟨ascii "f", octetMode, []⟩) (.seconds 0),
      fromPort 4000 (.data 7 [65]) (.seconds 4), .expiry (fun _ _ => true) (.seconds 9)]
    ∃ t, (first.run events).1.table.find? q = some t ∧ Punctual first events ∧
      (first.run events).1.OnTime (.seconds 14) ∧ t.timeout = 5 ∧
      lastAdvance? q first events = some (.seconds 0) ∧
      lastSign? q first events = some (.seconds 4) ∧
      ∃ since, (Time.seconds 14).toInt ≤
          since.toInt + (limits.retries + 1) * (t.timeout.toInt * 1000000000) ∧
        lastSign? q first events = some since ∧
        (t.direction = .read → lastAdvance? q first events = some since) := by
  intro store q limits first events
  have hsome : ((first.run events).1.table.find? q).isSome := by decide +kernel
  obtain ⟨t, ht⟩ := Option.isSome_iff_exists.1 hsome
  have htimeout : ∀ t ∈ (first.run events).1.table.find? q, t.timeout = 5 := by decide +kernel
  have hp : Punctual first events := by decide +kernel
  have hnow : (first.run events).1.OnTime (.seconds 14) := by decide +kernel
  have hfive := htimeout t ht
  exact ⟨t, ht, hp, hnow, hfive, by decide +kernel, by decide +kernel,
    sign_within_retries store limits 2 events q t (.seconds 14) hp hnow
      (by simpa only [first] using ht) (by rw [hfive]; decide)⟩

/-- A writer that is sent a block out of turn every now and then stays in the table although it
does not move on. -/
theorem not_advance_within_retries :
    ¬ ∀ (store : Memory.Files) (limits : Limits) (capacity : Nat) (events : List Event)
      (q : Endpoint) (t : Transfer Memory.Handle) (since now : Time),
      let first : Server Memory.Files Memory.Handle := new store limits capacity
      let s := (first.run events).1
      (events.filterMap Event.time? ++ [now]).Pairwise (· ≤ ·) → Punctual first events →
        s.OnTime now → s.table.find? q = some t → 0 ≤ t.timeout →
          lastAdvance? q first events = some since →
            now.toInt ≤
              since.toInt + (limits.retries + 1) * (t.timeout.toInt * 1000000000) := by
  intro hall
  let q : Endpoint := ⟨2130706433, 4000⟩
  let first : Server Memory.Files Memory.Handle := new [] { retries := 0 } 2
  let events := [fromPort 4000 (.request .write ⟨ascii "f", octetMode, []⟩) (.seconds 0),
    fromPort 4000 (.data 7 [65]) (.seconds 4)]
  have hsome : ((first.run events).1.table.find? q).isSome := by decide +kernel
  obtain ⟨t, ht⟩ := Option.isSome_iff_exists.1 hsome
  have htimeout : ∀ t ∈ (first.run events).1.table.find? q, t.timeout = 5 := by decide +kernel
  have hp : Punctual first events := by decide +kernel
  have hnow : (first.run events).1.OnTime (.seconds 6) := by decide +kernel
  have hlast : lastAdvance? q first events = some (.seconds 0) := by decide +kernel
  have hordered : (events.filterMap Event.time? ++ [Time.seconds 6]).Pairwise (· ≤ ·) := by
    decide +kernel
  have hfive := htimeout t ht
  have hlate := hall [] { retries := 0 } 2 events q t (.seconds 0) (.seconds 6) hordered hp hnow
    (by simpa only [first] using ht) (by rw [hfive]; decide) hlast
  rw [hfive] at hlate
  exact absurd hlate (by decide)

end Server
end Tftp
