import Mathlib.Tactic.Common
import Tftp.Proofs.Storage.Simulation
import Tftp.Proofs.Transfer.Run

namespace Tftp

variable {σ η τ θ ω : Type}

namespace Phase

def map (f : η → θ) : Phase η → Phase θ
  | negotiating file => negotiating (f file)
  | transferring file => transferring (f file)
  | completed => completed
  | aborted => aborted

@[simp] theorem file?_map (f : η → θ) (p : Phase η) : (p.map f).file? = p.file?.map f := by
  cases p <;> rfl

@[simp] theorem map_map (f : η → θ) (g : θ → ω) (p : Phase η) :
    (p.map f).map g = p.map fun file => g (f file) := by
  cases p <;> rfl

end Phase

@[simps] def Transfer.map (f : η → θ) (t : Transfer η) : Transfer θ :=
  { t with phase := t.phase.map f }

@[simps] def Step.map (f : η → θ) (g : σ → τ) (s : Step σ η) : Step τ θ :=
  { s with transfer := s.transfer.map f, store := g s.store }

theorem Transfer.map_map (f : η → θ) (g : θ → ω) (t : Transfer η) :
    (t.map f).map g = t.map fun file => g (f file) := by
  simp only [map, Phase.map_map]

theorem Transfer.map_congr {f g : η → θ} {t : Transfer η}
    (h : ∀ file, t.phase.file? = some file → f file = g file) : t.map f = t.map g := by
  cases t with
  | mk _ _ _ _ _ _ _ phase =>
    cases phase with
    | negotiating file | transferring file => simp only [map, Phase.map, h file rfl]
    | completed | aborted => rfl

theorem Transfer.map_self (t : Transfer η) : (t.map fun file => file) = t := by
  cases t with
  | mk _ _ _ _ _ _ _ phase => cases phase <;> rfl

def Step.shown (s : Step σ η) : Step Unit Unit := s.map (fun _ => ()) fun _ => ()

/-- What ties the two halves of a pair of transfers: their files, or the stores if they are over. -/
structure Transfer.Tied (R : η → σ → θ → τ → Prop) (S : σ → τ → Prop) (u : Transfer (η × θ))
    (store : σ) (store' : τ) : Prop where
  file : ∀ p, u.phase.file? = some p → R p.1 store p.2 store'
  closed : u.phase.file? = none → S store store'

structure Step.Simulated (R : η → σ → θ → τ → Prop) (S : σ → τ → Prop) (a : Step σ η)
    (b : Step τ θ) : Prop where
  action : a.action = b.action
  log : a.log = b.log
  transfer : ∃ u : Transfer (η × θ), a.transfer = u.map Prod.fst ∧ b.transfer = u.map Prod.snd ∧
    u.Tied R S a.store b.store

namespace Step.Simulated

variable {R : η → σ → θ → τ → Prop} {S : σ → τ → Prop} {a : Step σ η} {b : Step τ θ}

theorem after (h : a.Simulated R S b) (log : List Log.Entry) :
    (a.after log).Simulated R S (b.after log) :=
  ⟨h.action, congrArg (log ++ ·) h.log, h.transfer⟩

theorem opened (h : a.Simulated R S b) :
    (match a.action with
      | .closed _ => a
      | action => { a with action := .opened action.packet }).Simulated R S
    (match b.action with
      | .closed _ => b
      | action => { b with action := .opened action.packet }) := by
  rw [h.action]
  split
  · exact h
  · exact ⟨rfl, h.log, h.transfer⟩

theorem shown (h : a.Simulated R S b) : a.shown = b.shown := by
  obtain ⟨u, ha, hb, -⟩ := h.transfer
  simp only [Step.shown, Step.map, h.action, h.log, ha, hb, Transfer.map_map]

end Step.Simulated

namespace Transfer

variable {R : η → σ → θ → τ → Prop} {S : σ → τ → Prop} {u : Transfer (η × θ)} {p : η × θ}
  {store : σ} {store' : τ}

theorem Tied.of_file (hp : u.phase.file? = some p) (h : R p.1 store p.2 store') :
    u.Tied R S store store' where
  file q hq := by
    rw [hp, Option.some.injEq] at hq
    exact hq ▸ h
  closed hn := by simp [hp] at hn

theorem Tied.of_over (hp : u.phase.file? = none) (h : S store store') :
    u.Tied R S store store' where
  file q hq := by simp [hp] at hq
  closed _ := h

theorem simulated_idle (h : u.Tied R S store store') (log : List Log.Entry) :
    ((u.map Prod.fst).idle store log).Simulated R S ((u.map Prod.snd).idle store' log) :=
  ⟨rfl, rfl, u, rfl, rfl, h⟩

theorem simulated_transmit (h : u.Tied R S store store') (packet : Bytes) :
    ((u.map Prod.fst).transmit store packet).Simulated R S
      ((u.map Prod.snd).transmit store' packet) :=
  ⟨rfl, rfl, { u with lastPacket := packet }, rfl, rfl, h.file, h.closed⟩

variable [Storage σ η] [Storage τ θ] (k : Storage.Simulation R S)

include k

theorem simulated_complete (h : R p.1 store p.2 store') (packet : Bytes) :
    ((u.map Prod.fst).complete p.1 store packet).Simulated R S
      ((u.map Prod.snd).complete p.2 store' packet) := by
  obtain ⟨hlog, hstores⟩ := k.release h
  refine ⟨rfl, ?_, { u with phase := .completed }, rfl, rfl, .of_over rfl hstores⟩
  simp only [complete, hlog]
  rfl

theorem simulated_abort (h : R p.1 store p.2 store') (code : ErrorCode) (reason : Bytes) :
    ((u.map Prod.fst).abort p.1 store code reason).Simulated R S
      ((u.map Prod.snd).abort p.2 store' code reason) := by
  obtain ⟨hlog, hstores⟩ := k.release h
  refine ⟨rfl, ?_, { u with phase := .aborted }, rfl, rfl, .of_over rfl hstores⟩
  simp only [abort, hlog]
  rfl

theorem simulated_fail (h : R p.1 store p.2 store') (e : StorageError) :
    ((u.map Prod.fst).fail p.1 store e).Simulated R S ((u.map Prod.snd).fail p.2 store' e) :=
  (simulated_abort k h e.code e.code.name).after _

theorem simulated_sendNextBlock (h : R p.1 store p.2 store') :
    ((u.map Prod.fst).sendNextBlock p.1 store).Simulated R S
      ((u.map Prod.snd).sendNextBlock p.2 store') := by
  obtain ⟨got, file, left, file', left', hread, hread', h'⟩ := k.read u.blockSize h
  unfold sendNextBlock
  rw [map_blockSize, map_blockSize, hread, hread']
  cases got with
  | error e => exact simulated_fail k (p := (file, file')) h' e
  | ok payload =>
    exact simulated_transmit (u := { u with
      phase := .transferring (file, file')
      block := u.block + 1
      lastBlockSent := payload.length < u.blockSize
      transferred := u.transferred + payload.length }) (.of_file rfl h') _

theorem simulated_illegal (h : u.Tied R S store store') (reason : Bytes) :
    ((u.map Prod.fst).illegal store reason).Simulated R S
      ((u.map Prod.snd).illegal store' reason) := by
  unfold illegal
  rw [map_phase, map_phase, Phase.file?_map, Phase.file?_map]
  cases hp : u.phase.file? with
  | none => exact simulated_idle h []
  | some p => exact (simulated_abort k (h.file p hp) _ _).after _

theorem announceSize_eq (h : R p.1 store p.2 store') :
    (u.map Prod.fst).announceSize p.1 store = (u.map Prod.snd).announceSize p.2 store' := by
  simp only [announceSize, k.size h]
  rfl

theorem simulated_firstReply (hp : u.phase.file? = some p) (h : R p.1 store p.2 store') :
    ((u.map Prod.fst).firstReply p.1 store).Simulated R S
      ((u.map Prod.snd).firstReply p.2 store') := by
  unfold firstReply
  rw [map_accepted, map_accepted, map_direction, map_direction]
  split
  · cases u.direction with
    | read => exact simulated_sendNextBlock k h
    | write => exact simulated_transmit (.of_file hp h) _
  · exact (simulated_transmit (.of_file hp h) _).after _

theorem simulated_start (h : u.Tied R S store store') :
    ((u.map Prod.fst).start store).Simulated R S ((u.map Prod.snd).start store') := by
  unfold start
  rw [map_phase, map_phase]
  cases hp : u.phase with
  | negotiating p =>
    have hfile : R p.1 store p.2 store' := h.file p (by rw [hp]; rfl)
    dsimp only [Phase.map]
    -- both announce the same size, so the two that have begun are halves of one pair again
    rw [announceSize_eq k hfile]
    exact (simulated_firstReply k (u := { u with
      phase := .transferring p
      accepted := (u.map Prod.snd).announceSize p.2 store' }) rfl hfile).opened
  | transferring | completed | aborted => exact simulated_idle h []

theorem simulated_onAck (h : u.Tied R S store store') (block : UInt16) :
    ((u.map Prod.fst).onAck store block).Simulated R S
      ((u.map Prod.snd).onAck store' block) := by
  unfold onAck
  rw [map_phase, map_phase, map_direction, map_direction]
  cases hp : u.phase with
  | transferring p =>
    have hfile : R p.1 store p.2 store' := h.file p (by rw [hp]; rfl)
    cases u.direction with
    | write => exact simulated_illegal k h _
    | read =>
      dsimp only [Phase.map]
      rw [map_block, map_block, map_lastBlockSent, map_lastBlockSent]
      split
      · exact simulated_idle h _
      · split
        · exact simulated_complete k hfile _
        · exact simulated_sendNextBlock k
            (u := { u with direction := .read, phase := .transferring p, retries := 0 }) hfile
  | negotiating | completed | aborted => exact simulated_idle h []

theorem simulated_acknowledge (hp : u.phase.file? = some p) (h : R p.1 store p.2 store')
    (size : Nat) :
    ((u.map Prod.fst).acknowledge p.1 store size).Simulated R S
      ((u.map Prod.snd).acknowledge p.2 store' size) := by
  unfold acknowledge
  rw [map_blockSize, map_blockSize]
  dsimp only
  split
  · obtain ⟨done, file, left, file', left', hcommit, hcommit', h'⟩ := k.commit h
    rw [hcommit, hcommit']
    cases done with
    | error e => exact simulated_fail k (p := (file, file')) h' e
    | ok => exact simulated_complete k (p := (file, file')) h' _
  · exact simulated_transmit (.of_file hp h) _

theorem simulated_onData (h : u.Tied R S store store') (block : UInt16) (payload : Bytes) :
    ((u.map Prod.fst).onData store block payload).Simulated R S
      ((u.map Prod.snd).onData store' block payload) := by
  unfold onData
  rw [map_phase, map_phase, map_direction, map_direction]
  cases hp : u.phase with
  | transferring p =>
    have hfile : R p.1 store p.2 store' := h.file p (by rw [hp]; rfl)
    cases u.direction with
    | read => exact simulated_illegal k h _
    | write =>
      have hexpected : (u.map Prod.fst).expected = (u.map Prod.snd).expected := rfl
      dsimp only [Phase.map]
      rw [hexpected, map_blockSize, map_blockSize]
      split
      · exact (simulated_transmit h _).after _
      · split
        · exact simulated_illegal k h _
        · obtain ⟨done, file, left, file', left', hwrite, hwrite', h'⟩ := k.write payload hfile
          rw [hwrite, hwrite']
          cases done with
          | error e => exact simulated_fail k (p := (file, file')) h' e
          | ok =>
            exact simulated_acknowledge k (p := (file, file')) (u := { u with
              direction := .write
              phase := .transferring (file, file')
              block := block
              retries := 0
              transferred := u.transferred + payload.length }) rfl h' _
  | negotiating | completed | aborted => exact simulated_idle h []

theorem simulated_onError (h : u.Tied R S store store') (code : ErrorCode) (message : Bytes) :
    ((u.map Prod.fst).onError store code message).Simulated R S
      ((u.map Prod.snd).onError store' code message) := by
  unfold onError
  rw [map_phase, map_phase, Phase.file?_map, Phase.file?_map]
  cases hp : u.phase.file? with
  | none => exact simulated_idle h []
  | some p =>
    obtain ⟨hlog, hstores⟩ := k.release (h.file p hp)
    refine ⟨rfl, ?_, { u with phase := .aborted }, rfl, rfl, .of_over rfl hstores⟩
    dsimp only [Option.map]
    rw [hlog]
    rfl

theorem simulated_onTimeout (h : u.Tied R S store store') :
    ((u.map Prod.fst).onTimeout store).Simulated R S ((u.map Prod.snd).onTimeout store') := by
  unfold onTimeout
  rw [map_phase, map_phase]
  cases hp : u.phase with
  | transferring p =>
    have hfile : R p.1 store p.2 store' := h.file p (by rw [hp]; rfl)
    dsimp only [Phase.map]
    rw [map_retries, map_retries, map_maxRetries, map_maxRetries]
    split
    · exact (simulated_abort k hfile _ _).after _
    · exact ⟨rfl, rfl, { u with phase := .transferring p, retries := u.retries + 1 }, rfl, rfl,
        .of_file rfl hfile⟩
  | negotiating | completed | aborted => exact simulated_idle h []

theorem simulated_react (h : u.Tied R S store store') (e : Event) :
    ((u.map Prod.fst).react store e).Simulated R S ((u.map Prod.snd).react store' e) := by
  cases e with
  | start => exact simulated_start k h
  | ack block => exact simulated_onAck k h block
  | data block payload => exact simulated_onData k h block payload
  | error code message => exact simulated_onError k h code message
  | timeout => exact simulated_onTimeout k h
  | illegal reason => exact simulated_illegal k h reason

end Transfer

namespace Step.Simulated

variable [Storage σ η] [Storage τ θ] {R : η → σ → θ → τ → Prop} {S : σ → τ → Prop} {a : Step σ η}
  {b : Step τ θ}

theorem next (k : Storage.Simulation R S) (h : a.Simulated R S b) (e : Transfer.Event) :
    (a.next e).Simulated R S (b.next e) := by
  obtain ⟨u, ha, hb, htied⟩ := h.transfer
  rw [Step.next, Step.next, ha, hb]
  exact Transfer.simulated_react k htied e

theorem run (k : Storage.Simulation R S) (h : a.Simulated R S b) (events : List Transfer.Event) :
    (a.run events).Simulated R S (b.run events) ∧ a.actions events = b.actions events := by
  induction events generalizing a b with
  | nil => exact ⟨h, rfl⟩
  | cons e events ih =>
    have hnext := h.next k e
    obtain ⟨hrun, hactions⟩ := ih hnext
    refine ⟨hrun, ?_⟩
    rw [Step.actions, Step.actions, hnext.action, hactions]

end Step.Simulated
end Tftp
