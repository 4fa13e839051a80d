import Tftp.Proofs.Storage.Recorded
import Tftp.Proofs.Transfer.Reaction
import Tftp.Storage.Memory

/-!
Events that come too late, or again. An acknowledgement of any block but the last, and any block but
the one that is expected, leave a transfer and its file as they were: at most the last packet is
repeated. So it makes no difference how many of them there are.
-/

namespace Tftp
namespace Transfer

variable {σ η : Type}

/-- A reader takes the acknowledgement of the last block only, and a writer takes the next one. -/
def Event.Stale (t : Transfer η) : Event → Prop
  | ack block => t.direction = .read ∧ block ≠ t.block
  | data block _ => t.direction = .write ∧ block ≠ t.expected
  | start | error .. | timeout | illegal _ => False

instance (t : Transfer η) (e : Event) : Decidable (e.Stale t) :=
  match e with
  | .ack block => inferInstanceAs (Decidable (t.direction = .read ∧ block ≠ t.block))
  | .data block _ => inferInstanceAs (Decidable (t.direction = .write ∧ block ≠ t.expected))
  | .start | .error .. | .timeout | .illegal _ => .isFalse nofun

structure Echo (t : Transfer η) (store : σ) (e : Event) (s : Step σ η) : Prop where
  transfer : s.transfer = t
  store : s.store = store
  action : s.action = .noReply ∨
    (∃ block payload, e = .data block payload) ∧ s.action = .reply t.lastPacket

theorem Echo.idle (t : Transfer η) (store : σ) (e : Event) : Echo t store e (t.idle store) :=
  ⟨rfl, rfl, .inl rfl⟩

variable [Storage σ η]

theorem echo_react {t : Transfer η} {e : Event} (h : e.Stale t) (store : σ) :
    Echo t store e (t.react store e) := by
  cases hp : t.phase with
  | completed | aborted =>
    rw [react_over (by rw [hp]; rfl)]
    exact .idle t store e
  | negotiating file =>
    cases e with
    | ack block =>
      have hidle : t.react store (.ack block) = t.idle store := by simp only [react, onAck, hp]
      exact hidle ▸ .idle t store _
    | data block payload =>
      have hidle : t.react store (.data block payload) = t.idle store := by
        simp only [react, onData, hp]
      exact hidle ▸ .idle t store _
    | start | error | timeout | illegal => cases h
  | transferring file =>
    cases e with
    | ack block =>
      obtain ⟨log, hs⟩ := onAck_stale hp h.1 h.2 store
      rw [react, hs]
      exact ⟨rfl, rfl, .inl rfl⟩
    | data block payload =>
      obtain ⟨log, hs⟩ := onData_stale hp h.1 h.2 store payload
      rw [react, hs]
      exact ⟨rfl, rfl, .inr ⟨⟨block, payload, rfl⟩, rfl⟩⟩
    | start | error | timeout | illegal => cases h

end Transfer

def keptOf {α : Type} (marked : List (α × Bool)) : List α := (marked.filter (·.2)).map (·.1)

namespace Step

variable {σ η : Type} [Storage σ η]

/-- Only stale events are left out. Each is judged by the transfer as it is when it comes. -/
def Spares (s : Step σ η) : List (Transfer.Event × Bool) → Prop
  | [] => True
  | (e, kept) :: marked => (kept = false → e.Stale s.transfer) ∧ (s.next e).Spares marked

instance (s : Step σ η) (marked : List (Transfer.Event × Bool)) : Decidable (s.Spares marked) :=
  match marked with
  | [] => .isTrue trivial
  | (e, kept) :: marked =>
    have : Decidable ((s.next e).Spares marked) := instDecidableSpares (s.next e) marked
    inferInstanceAs (Decidable ((kept = false → e.Stale s.transfer) ∧ (s.next e).Spares marked))

variable {s s' : Step σ η} {marked : List (Transfer.Event × Bool)}

theorem next_congr (transfer : s.transfer = s'.transfer) (store : s.store = s'.store)
    (e : Transfer.Event) : s.next e = s'.next e := by
  rw [next, next, transfer, store]

theorem echo_next {e : Transfer.Event} (h : e.Stale s.transfer) :
    Transfer.Echo s.transfer s.store e (s.next e) := Transfer.echo_react h s.store

theorem run_keptOf (transfer : s.transfer = s'.transfer) (store : s.store = s'.store)
    (h : s.Spares marked) :
    (s.run (marked.map (·.1))).transfer = (s'.run (keptOf marked)).transfer ∧
      (s.run (marked.map (·.1))).store = (s'.run (keptOf marked)).store ∧
      s'.actions (keptOf marked) =
        keptOf ((s.actions (marked.map (·.1))).zip (marked.map (·.2))) := by
  induction marked generalizing s s' with
  | nil => exact ⟨transfer, store, rfl⟩
  | cons m marked ih =>
    obtain ⟨e, kept⟩ := m
    obtain ⟨hstale, hrest⟩ := h
    cases kept with
    | true =>
      have hnext := next_congr transfer store e
      obtain ⟨htransfer, hstore, hactions⟩ := ih (congrArg Step.transfer hnext)
        (congrArg Step.store hnext) hrest
      refine ⟨htransfer, hstore, ?_⟩
      change (s'.next e).action :: (s'.next e).actions (keptOf marked) = _
      rw [hactions, ← hnext]
      rfl
    | false =>
      have hecho := echo_next (hstale rfl)
      exact ih (hecho.transfer.trans transfer) (hecho.store.trans store) hrest

theorem Spares.stale (h : s.Spares marked) {before after : List (Transfer.Event × Bool)}
    {e : Transfer.Event} (hm : marked = before ++ (e, false) :: after) :
    e.Stale (s.run (before.map (·.1))).transfer := by
  subst hm
  induction before generalizing s with
  | nil => exact h.1 rfl
  | cons m before ih => exact ih h.2

end Step

/-- Leaving out stale events, in whatever number and from wherever they stand, makes no difference
to the transfer, nor to the store and the record of the calls on it. All other events bring about
the same actions, and each one that is left out was answered by the last packet at most. -/
theorem Step.replay {σ η : Type} [Storage σ η] {s : Step (Recorded σ) (Numbered η)}
    {marked : List (Transfer.Event × Bool)} (h : s.Spares marked) :
    (s.run (marked.map (·.1))).transfer = (s.run (keptOf marked)).transfer ∧
    (s.run (marked.map (·.1))).store = (s.run (keptOf marked)).store ∧
    s.actions (keptOf marked) =
      keptOf ((s.actions (marked.map (·.1))).zip (marked.map (·.2))) ∧
    ∀ before e after, marked = before ++ (e, false) :: after →
      let u := s.run (before.map (·.1))
      (u.next e).action = .noReply ∨ (∃ block payload, e = .data block payload) ∧
        (u.next e).action = .reply u.transfer.lastPacket := by
  obtain ⟨htransfer, hstore, hactions⟩ := run_keptOf rfl rfl h
  exact ⟨htransfer, hstore, hactions, fun before e after hm => (echo_next (h.stale hm)).action⟩

theorem Step.replay_ten_bytes :
    let file : Numbered Memory.Handle := ⟨⟨ascii "f", [], 0, []⟩, 0⟩
    let accepted : Accepted := ⟨[.blockSize 8]⟩
    let s : Step (Recorded Memory.Files) (Numbered Memory.Handle) :=
      (Transfer.new ⟨2130706433, 4000⟩ .write (ascii "f") file accepted {}).idle { store := [] }
    let marked : List (Transfer.Event × Bool) :=
      [(.start, true), (.data 0 [], false), (.data 1 [0, 1, 2, 3, 4, 5, 6, 7], true),
        (.data 1 [0, 1, 2, 3, 4, 5, 6, 7], false), (.timeout, true), (.data 65535 [9], false),
        (.data 2 [8, 9], true), (.data 2 [8, 9], false)]
    s.Spares marked ∧
      (s.run (marked.map (·.1))).store = (s.run (keptOf marked)).store ∧
      (s.run (keptOf marked)).store.calls = [.wrote 0 [0, 1, 2, 3, 4, 5, 6, 7] true,
        .wrote 0 [8, 9] true, .committed 0 true, .released 0] := by
  intro file accepted s marked
  have h : s.Spares marked := by decide +kernel
  exact ⟨h, (replay h).2.1, by decide +kernel⟩

end Tftp
