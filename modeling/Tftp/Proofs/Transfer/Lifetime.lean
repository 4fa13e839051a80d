import Mathlib.Data.List.Induction
import Tftp.Proofs.Storage.Calls
import Tftp.Proofs.Transfer.Course
import Tftp.Proofs.Transfer.Image

namespace Tftp

inductive Stage
  | negotiating
  | transferring
  | completed
  | aborted
  deriving DecidableEq

inductive Stage.Move : Stage → Stage → Prop
  | begin : Move negotiating transferring
  | refuse : Move negotiating aborted
  | complete : Move transferring completed
  | abort : Move transferring aborted

theorem Stage.Move.ne_negotiating {s s' : Stage} (h : Move s s') : s' ≠ .negotiating := by
  cases h <;> nofun

def Phase.stage {η : Type} : Phase η → Stage
  | negotiating _ => .negotiating
  | transferring _ => .transferring
  | completed => .completed
  | aborted => .aborted

theorem Phase.terminal_eq {η : Type} (p : Phase η) :
    p.terminal = decide (p.stage = .completed ∨ p.stage = .aborted) := by
  cases p <;> rfl

theorem Phase.terminal_of_move {η : Type} {p : Phase η} {next : Stage}
    (h : Stage.Move p.stage next) : p.terminal = false := by
  rw [Phase.terminal_eq]
  generalize p.stage = stage at h
  cases h <;> rfl

namespace Transfer

def Event.premature : Event → Bool
  | ack _ => true
  | data .. => true
  | timeout => true
  | start => false
  | error .. => false
  | illegal _ => false

variable {σ η : Type}

/-- What an event makes of the stage of a transfer. Whatever ends a transfer closes it. -/
inductive Turn (t : Transfer η) (e : Event) (s : Step σ η) : Prop
  | stays (stage : s.transfer.phase.stage = t.phase.stage) (closes : s.action.closes = false)
      (early : t.phase.stage = .negotiating → e.premature = true)
  | moves (move : Stage.Move t.phase.stage s.transfer.phase.stage)
      (closes : s.action.closes = s.transfer.terminal)
      (early : t.phase.stage = .negotiating → e.premature = false)
      (begins : s.transfer.phase.stage = .transferring → e = .start)

namespace Turn

variable {t : Transfer η} {e : Event} {s : Step σ η}

theorem moved (h : Turn t e s) : s.transfer.phase.stage = t.phase.stage ∨
    Stage.Move t.phase.stage s.transfer.phase.stage := by
  cases h with
  | stays stage => exact .inl stage
  | moves move => exact .inr move

theorem closes_iff (h : Turn t e s) :
    s.action.closes ↔ t.terminal = false ∧ s.transfer.terminal = true := by
  cases h with
  | stays stage closes =>
    have hsame : s.transfer.terminal = t.terminal := by
      rw [terminal, terminal, Phase.terminal_eq, Phase.terminal_eq, stage]
    simp [closes, hsame]
  | moves move closes =>
    have hbefore : t.terminal = false := Phase.terminal_of_move move
    simp [closes, hbefore]

theorem negotiating_iff (h : Turn t e s) : s.transfer.phase.stage = .negotiating ↔
    t.phase.stage = .negotiating ∧ e.premature := by
  cases h with
  | stays stage closes early => rw [stage, iff_self_and]; exact early
  | moves move closes early =>
    exact iff_of_false move.ne_negotiating fun ht => by simp [early ht.1] at ht

theorem unbegun (h : Turn t e s) (he : e ≠ .start)
    (ht : t.phase.stage = .negotiating ∨ t.phase.stage = .aborted) :
    s.transfer.phase.stage = .negotiating ∨ s.transfer.phase.stage = .aborted := by
  cases h with
  | stays stage => rwa [stage]
  | moves move closes early begins =>
    generalize t.phase.stage = before at move ht
    generalize s.transfer.phase.stage = after at move begins ⊢
    cases move with
    | begin => exact absurd (begins rfl) he
    | refuse | abort => exact .inr rfl
    | complete => simp at ht

end Turn

variable [Storage σ η] {t : Transfer η} {file : η} {store : σ} {e : Event}

theorem react_premature (hp : t.phase.stage = .negotiating) (he : e.premature) (store : σ) :
    t.react store e = t.idle store := by
  cases hphase : t.phase with
  | negotiating file =>
    cases e with
    | ack | data | timeout => simp only [react, onAck, onData, onTimeout, hphase]
    | start | error | illegal => cases he
  | transferring | completed | aborted => simp [hphase, Phase.stage] at hp

theorem turn_start (hp : t.phase = .negotiating file) (store : σ) :
    Turn t .start (t.start store) := by
  by_cases ha : t.accepted.choices = []
  · cases hd : t.direction with
    | write =>
      rw [start_write hp hd ha]
      exact .moves (by rw [hp]; exact .begin) rfl (fun _ => rfl) fun _ => rfl
    | read =>
      rcases hr : Storage.read t.blockSize file store with ⟨e | payload, file', store'⟩
      · rw [start_failed hp hd ha hr]
        exact .moves (by rw [hp]; exact .refuse) rfl (fun _ => rfl) fun _ => rfl
      · rw [start_read hp hd ha hr]
        exact .moves (by rw [hp]; exact .begin) rfl (fun _ => rfl) fun _ => rfl
  · obtain ⟨log, hs⟩ := start_options hp ha store
    rw [hs]
    exact .moves (by rw [hp]; exact .begin) rfl (fun _ => rfl) fun _ => rfl

theorem Course.turn {s : Step σ η} (h : Course t file store e s) (hp : t.phase = .transferring file) :
    Turn t e s := by
  have hlate : t.phase.stage ≠ .negotiating := by rw [hp]; nofun
  cases h with
  | unmoved action transfer | resent _ _ action transfer | repeated _ _ _ _ _ action transfer =>
    exact .stays (by rw [transfer]) (by rw [action]; rfl) fun hn => absurd hn hlate
  | sent _ _ _ _ _ _ action transfer | stored _ _ _ _ _ _ action transfer =>
    exact .stays (by rw [transfer, hp]; rfl) (by rw [action]; rfl) fun hn => absurd hn hlate
  | closed packet action ended =>
    have hover : s.transfer.terminal = true := by rw [terminal, Phase.terminal, ended]; rfl
    refine .moves ?_ (by rw [action, hover]; rfl) (fun hn => absurd hn hlate) fun hrun => ?_
    · rw [hp]
      cases hend : s.transfer.phase with
      | negotiating | transferring => simp [hend, Phase.file?] at ended
      | completed => exact .complete
      | aborted => exact .abort
    · rw [terminal, Phase.terminal_eq, hrun] at hover
      cases hover

theorem turn_react (t : Transfer η) (store : σ) (e : Event) : Turn t e (t.react store e) := by
  cases hp : t.phase with
  | negotiating file =>
    have hstage : t.phase.stage = .negotiating := by rw [hp]; rfl
    cases e with
    | start => exact turn_start hp store
    | ack | data | timeout =>
      rw [react_premature hstage rfl]
      exact .stays rfl rfl fun _ => rfl
    | error | illegal =>
      simp only [react, onError, illegal, hp, Phase.file?]
      exact .moves (by rw [hp]; exact .refuse) rfl (fun _ => rfl) fun hrun => by cases hrun
  | transferring file => exact (course_react hp store e).turn hp
  | completed | aborted =>
    rw [react_over (by rw [hp]; rfl)]
    exact .stays rfl rfl fun hn => by rw [hp] at hn; cases hn

end Transfer

namespace Recorded

variable {σ η : Type} {n : Nat} {before : List Call}

/-- Since a record, only file `n` was used: it is still held, or it was released as the last thing
that was done. -/
inductive Spent (n : Nat) (before : List Call) : List (Numbered η) → Recorded σ → Prop
  | held (f : Numbered η) (r : Recorded σ) (used : List Call) (number : f.number = n)
      (uses : ∀ c ∈ used, c.Uses n) (calls : r.calls = before ++ used) : Spent n before [f] r
  | released (r : Recorded σ) (used : List Call) (uses : ∀ c ∈ used, c.Uses n)
      (calls : r.calls = before ++ used ++ [.released n]) : Spent n before [] r

theorem Spent.used {f : Numbered η} {files : List (Numbered η)} {r r' : Recorded σ} {c : Call}
    (h : Spent n before (f :: files) r) (f' : Numbered η) (hf : f'.number = f.number)
    (hc : c.Uses f.number) (calls : r'.calls = r.calls ++ [c]) : Spent n before (f' :: files) r' := by
  cases h with
  | held _ _ used number uses hcalls =>
    refine .held f' r' (used ++ [c]) (hf.trans number) ?_ (by rw [calls, hcalls, List.append_assoc])
    exact List.forall_mem_append.2 ⟨uses, by simpa [number] using hc⟩

variable [Storage σ η]

theorem spent_kept (n : Nat) (before : List Call) :
    Storage.Kept (fun _ : Recorded σ => False) (fun _ => True) (Spent (η := η) n before) where
  perm := by
    intro files files' r hp h
    cases h with
    | held f _ used number uses calls =>
      rw [List.perm_singleton.1 hp.symm]
      exact .held f r used number uses calls
    | released _ used uses calls =>
      rw [List.perm_nil.1 hp.symm]
      exact .released r used uses calls
  opened _ hr := hr.elim
  refused _ hr := hr.elim
  read := by
    rintro size f f' files r r' got hc h
    cases hc
    exact h.used _ rfl (c := .read ..) rfl rfl
  write := by
    rintro block f f' files r r' done hc h
    cases hc
    exact h.used _ rfl (c := .wrote ..) rfl rfl
  commit := by
    rintro f f' files r r' done hc h
    cases hc
    exact h.used _ rfl (c := .committed ..) rfl rfl
  release := by
    rintro f files r h
    cases h with
    | held _ _ used number uses calls =>
      refine .released _ used uses ?_
      rw [release_store, note_calls, calls, number]

omit [Storage σ η] in
theorem Spent.file {t : Transfer (Numbered η)} {r : Recorded σ} (h : Spent n before t.files r) :
    t.phase.file?.map (·.number) = if t.terminal then none else some n := by
  unfold Transfer.files at h
  unfold Transfer.terminal Phase.terminal
  cases hf : t.phase.file? with
  | none => rfl
  | some f =>
    rw [hf] at h
    cases h with
    | held _ _ used number => exact congrArg some number

omit [Storage σ η] in
theorem Spent.since {t : Transfer (Numbered η)} {r : Recorded σ} (h : Spent n before t.files r) :
    ∃ used, (∀ c ∈ used, c.Uses n) ∧
      r.calls = before ++ used ++ if t.terminal then [.released n] else [] := by
  unfold Transfer.files at h
  unfold Transfer.terminal Phase.terminal
  cases hf : t.phase.file? with
  | none =>
    rw [hf] at h
    cases h with
    | released _ used uses calls => exact ⟨used, uses, calls⟩
  | some f =>
    rw [hf] at h
    cases h with
    | held _ _ used number uses calls => exact ⟨used, uses, calls.trans (List.append_nil _).symm⟩

theorem foldl_track {used : List Call} (uses : ∀ c ∈ used, c.Uses n) (files : List Nat) :
    used.foldl Call.track files = files := by
  induction used with
  | nil => rfl
  | cons c used ih =>
    obtain ⟨hc, hused⟩ := List.forall_mem_cons.1 uses
    rw [List.foldl_cons, hc.track_eq, ih hused]

omit [Storage σ η] in
theorem alive_of_since {r r' : Recorded σ} {used : List Call} {ended : Bool}
    (uses : ∀ c ∈ used, c.Uses n)
    (calls : r'.calls = r.calls ++ used ++ if ended then [.released n] else []) :
    r'.alive = if ended then r.alive.erase n else r.alive := by
  rw [alive, calls, List.foldl_append, List.foldl_append, foldl_track uses]
  cases ended <;> rfl

end Recorded

section

variable {σ η : Type} [Storage σ η]

namespace Step

theorem turn_next (s : Step σ η) (e : Transfer.Event) :
    Transfer.Turn s.transfer e (s.next e) := Transfer.turn_react s.transfer s.store e

theorem next_over {s : Step σ η} (h : s.transfer.terminal = true) (e : Transfer.Event) :
    s.next e = s.transfer.idle s.store :=
  Transfer.react_over (Option.isNone_iff_eq_none.1 h) s.store e

theorem negotiating_run_iff (s : Step σ η) (events : List Transfer.Event) :
    (s.run events).transfer.phase.stage = .negotiating ↔
      s.transfer.phase.stage = .negotiating ∧ ∀ e ∈ events, e.premature := by
  induction events generalizing s with
  | nil => simp
  | cons e events ih =>
    rw [run_cons, ih, (s.turn_next e).negotiating_iff, List.forall_mem_cons, and_assoc]

theorem unbegun_run {s : Step σ η} (h : s.transfer.phase.stage = .negotiating)
    {events : List Transfer.Event} (he : .start ∉ events) :
    (s.run events).transfer.phase.stage = .negotiating ∨
      (s.run events).transfer.phase.stage = .aborted := by
  induction events using List.reverseRecOn with
  | nil => exact .inl h
  | append_singleton events e ih =>
    rw [List.mem_append, List.mem_singleton, not_or] at he
    rw [run_concat]
    exact ((s.run events).turn_next e).unbegun (Ne.symm he.2) (ih he.1)

theorem next_premature {s : Step σ η} (h : s.transfer.phase.stage = .negotiating)
    {events : List Transfer.Event} (hs : .start ∉ events) {e : Transfer.Event} (he : e.premature) :
    (s.run events).next e = (s.run events).transfer.idle (s.run events).store := by
  rcases unbegun_run h hs with hwait | hover
  · exact Transfer.react_premature hwait he _
  · exact next_over (by rw [Transfer.terminal, Phase.terminal_eq, hover]; rfl) e

theorem countP_closes {s : Step σ η} (h : s.transfer.terminal = false)
    (events : List Transfer.Event) :
    (s.actions events).countP Action.closes =
      if (s.run events).transfer.terminal then 1 else 0 := by
  induction events using List.reverseRecOn with
  | nil => simp [actions, h]
  | append_singleton events e ih =>
    rw [actions_append, List.countP_append, ih, run_concat]
    have hclose := ((s.run events).turn_next e).closes_iff
    cases hbefore : (s.run events).transfer.terminal with
    | true =>
      have hidle := next_over hbefore e
      simp [actions, hidle, Transfer.idle, Action.closes, hbefore]
    | false =>
      cases hafter : ((s.run events).next e).transfer.terminal <;>
        simp_all [actions]

end Step

end

/-- How a transfer lives that had file `n` when the record was `r`: what has come of some events,
and what can come of one more. -/
structure Step.Lifetime {σ η : Type} [Storage σ η] (n : Nat) (r : Recorded σ)
    (first : Step (Recorded σ) (Numbered η)) (events : List Transfer.Event) : Prop where
  moves : ∀ e, ((first.run events).next e).transfer.phase.stage =
      (first.run events).transfer.phase.stage ∨
    Stage.Move (first.run events).transfer.phase.stage
      ((first.run events).next e).transfer.phase.stage
  file : (first.run events).transfer.phase.file?.map (·.number) =
    if (first.run events).transfer.terminal then none else some n
  calls : ∃ used, (∀ c ∈ used, c.Uses n) ∧ (first.run events).store.calls =
    r.calls ++ used ++ if (first.run events).transfer.terminal then [.released n] else []
  alive : (first.run events).store.alive =
    if (first.run events).transfer.terminal then r.alive.erase n else r.alive
  closes : ∀ e, ((first.run events).next e).action.closes ↔
    (first.run events).transfer.terminal = false ∧
      ((first.run events).next e).transfer.terminal = true
  once : (first.actions events).countP Action.closes =
    if (first.run events).transfer.terminal then 1 else 0
  waits : (first.run events).transfer.phase.stage = .negotiating ↔ ∀ e ∈ events, e.premature
  premature : .start ∉ events → ∀ e, e.premature → (first.run events).next e =
    (first.run events).transfer.idle (first.run events).store
  ended : (first.run events).transfer.terminal → ∀ e, (first.run events).next e =
    (first.run events).transfer.idle (first.run events).store

/-- Every transfer lives like that, whatever it is about, whatever its file does and in whatever
order the events come. The record has no part in it. -/
theorem Transfer.lifetime {σ η : Type} [Storage σ η] (peer : Endpoint) (d : Direction)
    (filename : Bytes) (file : η) (n : Nat) (accepted : Accepted) (limits : Limits)
    (r : Recorded σ) (events : List Event) :
    let first : Step (Recorded σ) (Numbered η) :=
      (new peer d filename ⟨file, n⟩ accepted limits).idle r
    (first.run events).map Numbered.file Recorded.store =
        ((new peer d filename file accepted limits).idle r.store).run events ∧
      Step.Lifetime n r first events := by
  intro first
  have hspent : Recorded.Spent n r.calls (first.run events).transfer.files
      (first.run events).store := by
    induction events using List.reverseRecOn with
    | nil => exact .held ⟨file, n⟩ r [] rfl nofun (List.append_nil _).symm
    | append_singleton events e ih =>
      rw [Step.run_concat]
      have hlast : Recorded.Spent n r.calls ((first.run events).transfer.files ++ [])
          (first.run events).store := by
        rwa [List.append_nil]
      have hnext := (Recorded.spent_kept n r.calls).react e hlast
      rwa [List.append_nil] at hnext
  obtain ⟨used, uses, calls⟩ := hspent.since
  refine ⟨(Step.run_map Recorded.image first events).symm, ?_⟩
  exact {
    moves := fun e => ((first.run events).turn_next e).moved
    file := hspent.file
    calls := ⟨used, uses, calls⟩
    alive := Recorded.alive_of_since uses calls
    closes := fun e => ((first.run events).turn_next e).closes_iff
    once := Step.countP_closes rfl events
    waits := (first.negotiating_run_iff events).trans (and_iff_right rfl)
    premature := fun hs e he => Step.next_premature rfl hs he
    ended := fun hover e => Step.next_over hover e }

end Tftp
