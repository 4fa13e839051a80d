import Tftp.Endpoint
import Tftp.Negotiation
import Tftp.Packet.Summary
import Tftp.Packet.Wire
import Tftp.Storage

/-!
One transfer of one file. Every event is a function from the transfer and the store to a step:
what to answer, the transfer and the store afterwards, and the log. A transfer holds its file
exactly as long as it is not over.
-/

namespace Tftp

/-- What is to be done after an event. A packet that is empty is not sent. -/
inductive Action
  | noReply
  | reply (packet : Bytes)
  | opened (packet : Bytes)
  | closed (packet : Bytes)
  deriving DecidableEq

def Action.packet : Action → Bytes
  | .noReply => []
  | .reply p => p
  | .opened p => p
  | .closed p => p

def Action.closes : Action → Bool
  | .closed _ => true
  | _ => false

structure Limits where
  timeout : Int64 := 5
  retries : Nat := 5

inductive Phase (η : Type)
  | negotiating (file : η)
  | transferring (file : η)
  | completed
  | aborted

namespace Phase

def file? {η : Type} : Phase η → Option η
  | .negotiating f => some f
  | .transferring f => some f
  | .completed => none
  | .aborted => none

def terminal {η : Type} (p : Phase η) : Bool := p.file?.isNone

end Phase

structure Transfer (η : Type) where
  peer : Endpoint
  direction : Direction
  filename : Bytes
  accepted : Accepted
  blockSize : Nat
  /-- Seconds from a packet to its repetition. -/
  timeout : Int64
  maxRetries : Nat
  phase : Phase η
  /-- The last block sent, or the last one acknowledged. -/
  block : UInt16 := 0
  retries : Nat := 0
  lastBlockSent : Bool := false
  lastPacket : Bytes := []
  transferred : Nat := 0

structure Step (σ η : Type) where
  action : Action
  transfer : Transfer η
  store : σ
  log : List Log.Entry := []

def Step.after {σ η : Type} (before : List Log.Entry) (s : Step σ η) : Step σ η :=
  { s with log := before ++ s.log }

def Endpoint.tag (e : Endpoint) : Bytes := 91 :: e.text ++ ascii "] "

def Endpoint.note (e : Endpoint) (level : Log.Level) (text : Bytes) : Log.Entry :=
  ⟨level, e.tag ++ text⟩

namespace Transfer

variable {σ η : Type}

def new (peer : Endpoint) (direction : Direction) (filename : Bytes) (file : η)
    (accepted : Accepted) (limits : Limits) : Transfer η where
  peer := peer
  direction := direction
  filename := filename
  accepted := accepted
  blockSize := accepted.blockSize?.getD defaultBlockSize
  timeout := (accepted.timeout?.map fun n => .ofNat n.toNat).getD limits.timeout
  maxRetries := limits.retries
  phase := .negotiating file

def terminal (t : Transfer η) : Bool := t.phase.terminal

def note (t : Transfer η) (level : Log.Level) (text : Bytes) : Log.Entry := t.peer.note level text

def idle (t : Transfer η) (store : σ) (log : List Log.Entry := []) : Step σ η :=
  ⟨.noReply, t, store, log⟩

def transmit (t : Transfer η) (store : σ) (packet : Bytes) : Step σ η :=
  ⟨.reply packet, { t with lastPacket := packet }, store, []⟩

variable [Storage σ η]

def discard (t : Transfer η) (store : σ) : List Log.Entry × σ :=
  match t.phase.file? with
  | none => ([], store)
  | some file => Storage.release file store

def complete (t : Transfer η) (file : η) (store : σ) (packet : Bytes) : Step σ η :=
  let (released, store) := Storage.release file store
  ⟨.closed packet, { t with phase := .completed }, store,
    released ++ [t.note .info (t.direction.requestName ++ ascii " for " ++ t.filename
      ++ ascii " completed successfully (" ++ decimal t.transferred ++ ascii " bytes).")]⟩

def abort (t : Transfer η) (file : η) (store : σ) (code : ErrorCode) (reason : Bytes) : Step σ η :=
  let (released, store) := Storage.release file store
  ⟨.closed (Packet.bytes (.error code reason)), { t with phase := .aborted }, store,
    released ++ [t.note .warn (ascii "aborting transfer of " ++ t.filename ++ ascii ": " ++ reason)]⟩

def fail (t : Transfer η) (file : η) (store : σ) (e : StorageError) : Step σ η :=
  (t.abort file store e.code e.code.name).after [t.note .error e.message]

def sendNextBlock (t : Transfer η) (file : η) (store : σ) : Step σ η :=
  match Storage.read t.blockSize file store with
  | (.error e, file, store) => t.fail file store e
  | (.ok payload, file, store) =>
    let block := t.block + 1
    let t := { t with
      phase := .transferring file
      block := block
      lastBlockSent := payload.length < t.blockSize
      transferred := t.transferred + payload.length }
    t.transmit store (Packet.bytes (.data block payload))

def illegal (t : Transfer η) (store : σ) (reason : Bytes) : Step σ η :=
  match t.phase.file? with
  | none => t.idle store
  | some file =>
    (t.abort file store .illegalOperation (ascii "illegal operation")).after [t.note .warn reason]

def announceSize (t : Transfer η) (file : η) (store : σ) : Accepted :=
  if t.direction = .read ∧ t.accepted.has .transferSize then
    t.accepted.set (.transferSize (Storage.size file store))
  else t.accepted

def firstReply (t : Transfer η) (file : η) (store : σ) : Step σ η :=
  if t.accepted.choices.isEmpty then
    match t.direction with
    | .read => t.sendNextBlock file store
    | .write => t.transmit store (Packet.bytes (.ack 0))
  else
    let packet := Packet.optionAck t.accepted.fields
    (t.transmit store packet.bytes).after [t.note .debug (ascii "negotiated " ++ packet.summary)]

/-- The first reply: the accepted options if there are any, else the first block or ACK 0. -/
def start (t : Transfer η) (store : σ) : Step σ η :=
  match t.phase with
  | .negotiating file =>
    let t := { t with phase := .transferring file, accepted := t.announceSize file store }
    let s := t.firstReply file store
    match s.action with
    | .closed _ => s
    | a => { s with action := .opened a.packet }
  | _ => t.idle store

def onAck (t : Transfer η) (store : σ) (block : UInt16) : Step σ η :=
  match t.phase with
  | .transferring file =>
    match t.direction with
    | .write => t.illegal store (ascii "ACK received during a write transfer")
    | .read =>
      if block ≠ t.block then
        t.idle store [t.note .debug (ascii "ignoring ACK " ++ decimal block.toNat
          ++ ascii " (waiting for " ++ decimal t.block.toNat ++ ascii ")")]
      else if t.lastBlockSent then t.complete file store []
      else { t with retries := 0 }.sendNextBlock file store
  | _ => t.idle store

def expected (t : Transfer η) : UInt16 := t.block + 1

/-- Commits after a short block, and acknowledges any block that was stored. -/
def acknowledge (t : Transfer η) (file : η) (store : σ) (size : Nat) : Step σ η :=
  let ack := Packet.bytes (.ack t.block)
  if size < t.blockSize then
    match Storage.commit file store with
    | (.error e, file, store) => t.fail file store e
    | (.ok (), file, store) => t.complete file store ack
  else t.transmit store ack

def onData (t : Transfer η) (store : σ) (block : UInt16) (payload : Bytes) : Step σ η :=
  match t.phase with
  | .transferring file =>
    match t.direction with
    | .read => t.illegal store (ascii "DATA received during a read transfer")
    | .write =>
      if block ≠ t.expected then
        (t.transmit store t.lastPacket).after [t.note .debug (ascii "received DATA "
          ++ decimal block.toNat ++ ascii " (expected " ++ decimal t.expected.toNat
          ++ ascii "). Resending last reply.")]
      else if payload.length > t.blockSize then
        t.illegal store (ascii "DATA block larger than negotiated blksize")
      else
        match Storage.write payload file store with
        | (.error e, file, store) => t.fail file store e
        | (.ok (), file, store) =>
          let t := { t with
            phase := .transferring file
            block := block
            retries := 0
            transferred := t.transferred + payload.length }
          t.acknowledge file store payload.length
  | _ => t.idle store

def onError (t : Transfer η) (store : σ) (code : ErrorCode) (message : Bytes) : Step σ η :=
  match t.phase.file? with
  | none => t.idle store
  | some file =>
    let (released, store) := Storage.release file store
    ⟨.closed [], { t with phase := .aborted }, store,
      t.note .warn (ascii "received TFTP Error from client: Code " ++ decimal code.number.toNat
        ++ ascii ": " ++ message ++ ascii ". Aborting transfer of " ++ t.filename ++ ascii ".")
        :: released⟩

/-- Sends the last packet again, or gives up after the last retry. -/
def onTimeout (t : Transfer η) (store : σ) : Step σ η :=
  match t.phase with
  | .transferring file =>
    if t.retries ≥ t.maxRetries then
      (t.abort file store .notDefined (ascii "timeout")).after
        [t.note .warn (ascii "max retries exceeded waiting on block " ++ decimal t.block.toNat
          ++ ascii ".")]
    else
      let t := { t with retries := t.retries + 1 }
      ⟨.reply t.lastPacket, t, store,
        [t.note .debug (ascii "timeout, resending last packet (attempt " ++ decimal t.retries
          ++ ascii " of " ++ decimal t.maxRetries ++ ascii ")")]⟩
  | _ => t.idle store

end Transfer
end Tftp
