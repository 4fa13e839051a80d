import Tftp.Proofs.Log
import Tftp.Proofs.Transfer.Run

namespace Tftp

open Log

/-- What is asked of an open file: its store stays within `J`, says nothing with a line break in it
if the file is `clean`, and has only `other` entries for the log when the file is closed. -/
structure Storage.Terse (σ : Type) {η : Type} [Storage σ η] (J : η → σ → Prop) (clean : Prop)
    (other : Log.Entry → Prop) : Prop where
  read {n : Nat} {file file' : η} {store store' : σ} {got : Except StorageError Bytes} :
    Storage.read n file store = (got, file', store') → J file store →
      J file' store' ∧ ∀ e, got = .error e → clean → 10 ∉ e.message
  write {block : Bytes} {file file' : η} {store store' : σ} {done : Except StorageError Unit} :
    Storage.write block file store = (done, file', store') → J file store →
      J file' store' ∧ ∀ e, done = .error e → clean → 10 ∉ e.message
  commit {file file' : η} {store store' : σ} {done : Except StorageError Unit} :
    Storage.commit file store = (done, file', store') → J file store →
      J file' store' ∧ ∀ e, done = .error e → clean → 10 ∉ e.message
  release {file : η} {store : σ} : J file store →
    ∀ e ∈ (Storage.release file store).1, other e ∧ (clean → 10 ∉ e.text)

def Transfer.Event.Clean : Event → Prop
  | .error _ message => 10 ∉ message
  | .illegal reason => 10 ∉ reason
  | _ => True

theorem code_clean (c : ErrorCode) : 10 ∉ c.name := by
  unfold ErrorCode.name
  repeat' split
  all_goals decide +kernel

theorem decimal_clean (n : Nat) : 10 ∉ decimal n := fun h =>
  absurd (isDigit_of_mem_decimal h) (by decide)

namespace Transfer

variable {σ η : Type} [Storage σ η] {J : η → σ → Prop} {clean : Prop} {other : Log.Entry → Prop}
  (k : Storage.Terse σ J clean other) {t : Transfer η} {file : η} {store : σ}
  (hname : clean → 10 ∉ t.filename)

include k

theorem tells_release (h : J file store) (peer : Endpoint) :
    Tells peer clean other (Storage.release file store).1 := fun e he =>
  .inr ((k.release h e he).imp_left .inr)

include hname

theorem tells_complete (h : J file store) (packet : Bytes) :
    Tells t.peer clean other (t.complete file store packet).log := by
  refine (tells_release k h t.peer).append (.cons (told_note fun hc => ?_) .nil)
  have hname := hname hc
  have hdirection : 10 ∉ t.direction.requestName := by
    cases t.direction <;> decide
  have hcount := decimal_clean t.transferred
  have hwords : 10 ∉ ascii " for " ∧ 10 ∉ ascii " completed successfully (" ∧
      10 ∉ ascii " bytes)." := by decide
  simp [hname, hdirection, hcount, hwords]

theorem tells_abort (h : J file store) (code : ErrorCode) {reason : Bytes}
    (hreason : clean → 10 ∉ reason) :
    Tells t.peer clean other (t.abort file store code reason).log := by
  refine (tells_release k h t.peer).append (.cons (told_note fun hc => ?_) .nil)
  have hname := hname hc
  have hreason := hreason hc
  have hwords : 10 ∉ ascii "aborting transfer of " ∧ 10 ∉ ascii ": " := by decide
  simp [hname, hreason, hwords]

theorem tells_fail (h : J file store) {e : StorageError} (he : clean → 10 ∉ e.message) :
    Tells t.peer clean other (t.fail file store e).log :=
  .cons (told_note he) (tells_abort k hname h _ fun _ => code_clean _)

theorem tells_sendNextBlock (h : J file store) :
    Tells t.peer clean other (t.sendNextBlock file store).log := by
  unfold sendNextBlock
  split
  · rename_i hr
    obtain ⟨h, he⟩ := k.read hr h
    exact tells_fail k hname h (he _ rfl)
  · exact .nil

theorem tells_illegal (h : ∀ file ∈ t.phase.file?, J file store) {reason : Bytes}
    (hreason : clean → 10 ∉ reason) :
    Tells t.peer clean other (t.illegal store reason).log := by
  unfold illegal
  split
  · exact .nil
  · rename_i file hf
    exact .cons (told_note hreason) (tells_abort k hname (h file hf) _ fun _ => by decide)

theorem tells_firstReply (h : J file store) :
    Tells t.peer clean other (t.firstReply file store).log := by
  unfold firstReply
  split
  · split
    · exact tells_sendNextBlock k hname h
    · exact .nil
  · exact .cons (told_debug ..) .nil

theorem tells_start (h : ∀ file ∈ t.phase.file?, J file store) :
    Tells t.peer clean other (t.start store).log := by
  unfold start
  split
  · rename_i file hp
    have hfile : J file store := h file (by rw [hp]; rfl)
    dsimp only
    split <;> exact tells_firstReply (t := { t with
      phase := .transferring file
      accepted := t.announceSize file store }) k hname hfile
  · exact .nil

theorem tells_onAck (h : ∀ file ∈ t.phase.file?, J file store) (block : UInt16) :
    Tells t.peer clean other (t.onAck store block).log := by
  unfold onAck
  split
  · rename_i file hp
    have hfile : J file store := h file (by rw [hp]; rfl)
    split
    · exact tells_illegal k hname h fun _ => by decide
    · split
      · exact .cons (told_debug ..) .nil
      · split
        · exact tells_complete k hname hfile _
        · exact tells_sendNextBlock (t := { t with retries := 0 }) k hname hfile
  · exact .nil

theorem tells_acknowledge (h : J file store) (size : Nat) :
    Tells t.peer clean other (t.acknowledge file store size).log := by
  unfold acknowledge
  dsimp only
  split
  · split
    · rename_i hc
      obtain ⟨h, he⟩ := k.commit hc h
      exact tells_fail k hname h (he _ rfl)
    · rename_i hc
      exact tells_complete k hname (k.commit hc h).1 _
  · exact .nil

theorem tells_onData (h : ∀ file ∈ t.phase.file?, J file store) (block : UInt16)
    (payload : Bytes) : Tells t.peer clean other (t.onData store block payload).log := by
  unfold onData
  split
  · rename_i file hp
    have hfile : J file store := h file (by rw [hp]; rfl)
    split
    · exact tells_illegal k hname h fun _ => by decide
    · split
      · exact .cons (told_debug ..) .nil
      · split
        · exact tells_illegal k hname h fun _ => by decide
        · split
          · rename_i hw
            obtain ⟨h, he⟩ := k.write hw hfile
            exact tells_fail k hname h (he _ rfl)
          · rename_i file' store' hw
            exact tells_acknowledge (t := { t with
              phase := .transferring file'
              block := block
              retries := 0
              transferred := t.transferred + payload.length }) k hname (k.write hw hfile).1 _
  · exact .nil

theorem tells_onError (h : ∀ file ∈ t.phase.file?, J file store) (code : ErrorCode)
    {message : Bytes} (hmessage : clean → 10 ∉ message) :
    Tells t.peer clean other (t.onError store code message).log := by
  unfold onError
  split
  · exact .nil
  · rename_i file hf
    refine .cons (told_note fun hc => ?_) (tells_release k (h file hf) t.peer)
    have hname := hname hc
    have hmessage := hmessage hc
    have hcode := decimal_clean code.number.toNat
    have hwords : 10 ∉ ascii "received TFTP Error from client: Code " ∧ 10 ∉ ascii ": " ∧
        10 ∉ ascii ". Aborting transfer of " ∧ 10 ∉ ascii "." := by decide
    simp [hname, hmessage, hcode, hwords]

theorem tells_onTimeout (h : ∀ file ∈ t.phase.file?, J file store) :
    Tells t.peer clean other (t.onTimeout store).log := by
  unfold onTimeout
  split
  · rename_i file hp
    have hfile : J file store := h file (by rw [hp]; rfl)
    split
    · refine .cons (told_note fun _ => ?_) (tells_abort k hname hfile _ fun _ => by decide)
      have hblock := decimal_clean t.block.toNat
      have hwords : 10 ∉ ascii "max retries exceeded waiting on block " ∧ 10 ∉ ascii "." := by
        decide
      simp [hblock, hwords]
    · exact .cons (told_debug ..) .nil
  · exact .nil

theorem tells_react (h : ∀ file ∈ t.phase.file?, J file store) (event : Event)
    (hevent : clean → event.Clean) : Tells t.peer clean other (t.react store event).log := by
  cases event with
  | start => exact tells_start k hname h
  | ack block => exact tells_onAck k hname h block
  | data block payload => exact tells_onData k hname h block payload
  | error code message => exact tells_onError k hname h code hevent
  | timeout => exact tells_onTimeout k hname h
  | illegal reason => exact tells_illegal k hname h hevent

end Transfer
end Tftp
