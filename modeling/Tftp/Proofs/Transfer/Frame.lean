import Tftp.Proofs.Negotiation
import Tftp.Proofs.Transfer.Run

namespace Tftp
namespace Transfer

structure Terms where
  peer : Endpoint
  direction : Direction
  filename : Bytes
  blockSize : Nat
  timeout : Int64
  maxRetries : Nat

def terms {η : Type} (t : Transfer η) : Terms :=
  ⟨t.peer, t.direction, t.filename, t.blockSize, t.timeout, t.maxRetries⟩

variable {σ η : Type} [Storage σ η]

theorem terms_sendNextBlock (t : Transfer η) (file : η) (store : σ) :
    (t.sendNextBlock file store).transfer.terms = t.terms := by
  unfold sendNextBlock
  split <;> rfl

theorem terms_illegal (t : Transfer η) (store : σ) (reason : Bytes) :
    (t.illegal store reason).transfer.terms = t.terms := by
  unfold illegal
  split <;> rfl

theorem terms_firstReply (t : Transfer η) (file : η) (store : σ) :
    (t.firstReply file store).transfer.terms = t.terms := by
  unfold firstReply
  split
  · split
    · exact terms_sendNextBlock t file store
    · rfl
  · rfl

theorem terms_start (t : Transfer η) (store : σ) : (t.start store).transfer.terms = t.terms := by
  unfold start
  split
  · dsimp only
    split <;> exact terms_firstReply _ _ store
  · rfl

theorem terms_onAck (t : Transfer η) (store : σ) (block : UInt16) :
    (t.onAck store block).transfer.terms = t.terms := by
  unfold onAck
  split
  · split
    · exact terms_illegal t store _
    · split
      · rfl
      · split
        · rfl
        · exact terms_sendNextBlock _ _ store
  · rfl

theorem terms_acknowledge (t : Transfer η) (file : η) (store : σ) (size : Nat) :
    (t.acknowledge file store size).transfer.terms = t.terms := by
  unfold acknowledge
  dsimp only
  split
  · split <;> rfl
  · rfl

theorem terms_onData (t : Transfer η) (store : σ) (block : UInt16) (payload : Bytes) :
    (t.onData store block payload).transfer.terms = t.terms := by
  unfold onData
  split
  · split
    · exact terms_illegal t store _
    · split
      · rfl
      · split
        · exact terms_illegal t store _
        · split
          · rfl
          · exact terms_acknowledge _ _ _ _
  · rfl

theorem terms_onError (t : Transfer η) (store : σ) (code : ErrorCode) (message : Bytes) :
    (t.onError store code message).transfer.terms = t.terms := by
  unfold onError
  split <;> rfl

theorem terms_onTimeout (t : Transfer η) (store : σ) :
    (t.onTimeout store).transfer.terms = t.terms := by
  unfold onTimeout
  split
  · split <;> rfl
  · rfl

theorem terms_react (t : Transfer η) (store : σ) (e : Event) :
    (t.react store e).transfer.terms = t.terms := by
  cases e with
  | start => exact terms_start t store
  | ack block => exact terms_onAck t store block
  | data block payload => exact terms_onData t store block payload
  | error code message => exact terms_onError t store code message
  | timeout => exact terms_onTimeout t store
  | illegal reason => exact terms_illegal t store reason

theorem blockSize_start (peer : Endpoint) (d : Direction) (filename : Bytes) (file : η)
    (os : List OptionField) (limits : Limits) (store : σ) :
    minBlockSize ≤
        ((new peer d filename file (negotiate os).1 limits).start store).transfer.blockSize ∧
      ((new peer d filename file (negotiate os).1 limits).start store).transfer.blockSize ≤
        maxBlockSize := by
  have h := congrArg Terms.blockSize
    (terms_start (new peer d filename file (negotiate os).1 limits) store)
  simp only [terms] at h
  rw [h]
  exact blockSize_new peer d filename file os limits

theorem accepted_sendNextBlock (t : Transfer η) (file : η) (store : σ) :
    (t.sendNextBlock file store).transfer.accepted = t.accepted := by
  unfold sendNextBlock
  split <;> rfl

theorem accepted_firstReply (t : Transfer η) (file : η) (store : σ) :
    (t.firstReply file store).transfer.accepted = t.accepted := by
  unfold firstReply
  split
  · split
    · exact accepted_sendNextBlock t file store
    · rfl
  · rfl

theorem accepted_start {t : Transfer η} {file : η} (hp : t.phase = .negotiating file) (store : σ) :
    (t.start store).transfer.accepted = t.announceSize file store := by
  unfold start
  simp only [hp]
  split <;> exact accepted_firstReply _ file store

theorem timeout?_announceSize (t : Transfer η) (file : η) (store : σ) :
    (t.announceSize file store).timeout? = t.accepted.timeout? := by
  unfold announceSize
  split
  · exact Accepted.timeout?_set_transferSize _ _
  · rfl

end Transfer

theorem Step.terms_run {σ η : Type} [Storage σ η] (s : Step σ η) (es : List Transfer.Event) :
    (s.run es).transfer.terms = s.transfer.terms := by
  induction es generalizing s with
  | nil => rfl
  | cons e es ih =>
    rw [Step.run_cons, ih]
    exact s.transfer.terms_react s.store e

end Tftp
