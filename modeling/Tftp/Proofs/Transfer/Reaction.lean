import Tftp.Proofs.Negotiation
import Tftp.Proofs.Transfer.Run

namespace Tftp
namespace Transfer

variable {σ η : Type} [Storage σ η] {t : Transfer η} {store : σ} {file : η}

theorem complete_eq (t : Transfer η) (file : η) (store : σ) (packet : Bytes) :
    ∃ log, t.complete file store packet =
      ⟨.closed packet, { t with phase := .completed }, (Storage.release file store).2, log⟩ :=
  ⟨_, rfl⟩

theorem onTimeout_resend (h : t.phase = .transferring file) (hr : t.retries < t.maxRetries)
    (store : σ) :
    ∃ log, t.onTimeout store =
      ⟨.reply t.lastPacket, { t with retries := t.retries + 1 }, store, log⟩ := by
  unfold onTimeout
  split
  · rw [if_neg (Nat.not_le_of_lt hr)]
    exact ⟨_, rfl⟩
  · rename_i hne
    exact (hne file h).elim

theorem onTimeout_abort (h : t.phase = .transferring file) (hr : t.maxRetries ≤ t.retries)
    (store : σ) :
    ∃ log, t.onTimeout store =
      ⟨.closed (Packet.bytes (.error .notDefined (ascii "timeout"))), { t with phase := .aborted },
        (Storage.release file store).2, log⟩ := by
  have ha : ∃ log, t.onTimeout store =
      (t.abort file store .notDefined (ascii "timeout")).after log := by
    simp only [onTimeout, h, hr, if_true]
    exact ⟨_, rfl⟩
  obtain ⟨log, ha⟩ := ha
  rw [ha]
  exact ⟨_, rfl⟩

theorem onAck_stale (h : t.phase = .transferring file) (hd : t.direction = .read) {block : UInt16}
    (hb : block ≠ t.block) (store : σ) :
    ∃ log, t.onAck store block = ⟨.noReply, t, store, log⟩ := by
  refine ⟨[t.note .debug (ascii "ignoring ACK " ++ decimal block.toNat
    ++ ascii " (waiting for " ++ decimal t.block.toNat ++ ascii ")")], ?_⟩
  simp only [onAck, h, hd, hb, ne_eq, not_false_eq_true, if_true]
  rfl

theorem onAck_last (h : t.phase = .transferring file) (hd : t.direction = .read)
    (hl : t.lastBlockSent = true) (store : σ) :
    ∃ log, t.onAck store t.block =
      ⟨.closed [], { t with phase := .completed }, (Storage.release file store).2, log⟩ := by
  have hc : t.onAck store t.block = t.complete file store [] := by
    simp only [onAck, h, hd, hl, ne_eq, not_true_eq_false, if_false, if_true]
  rw [hc]
  exact complete_eq t file store []

theorem onAck_next (h : t.phase = .transferring file) (hd : t.direction = .read)
    (hl : t.lastBlockSent = false) (store : σ) :
    t.onAck store t.block = { t with retries := 0 }.sendNextBlock file store := by
  simp [onAck, h, hd, hl]

theorem sendNextBlock_ok {payload : Bytes} {file' : η} {store' : σ}
    (h : Storage.read t.blockSize file store = (.ok payload, file', store')) :
    t.sendNextBlock file store =
      ⟨.reply (Packet.bytes (.data (t.block + 1) payload)),
        { t with
          phase := .transferring file'
          block := t.block + 1
          lastBlockSent := payload.length < t.blockSize
          transferred := t.transferred + payload.length
          lastPacket := Packet.bytes (.data (t.block + 1) payload) }, store', []⟩ := by
  simp only [sendNextBlock, h]
  rfl

theorem onData_stale (h : t.phase = .transferring file) (hd : t.direction = .write)
    {block : UInt16} (hb : block ≠ t.expected) (store : σ) (payload : Bytes) :
    ∃ log, t.onData store block payload = ⟨.reply t.lastPacket, t, store, log⟩ := by
  refine ⟨[t.note .debug (ascii "received DATA " ++ decimal block.toNat ++ ascii " (expected "
    ++ decimal t.expected.toNat ++ ascii "). Resending last reply.")], ?_⟩
  simp only [onData, h, hd, hb, ne_eq, not_false_eq_true, if_true]
  rfl

def stored (t : Transfer η) (file : η) (size : Nat) : Transfer η :=
  { t with
    phase := .transferring file
    block := t.expected
    retries := 0
    transferred := t.transferred + size }

theorem onData_ok (h : t.phase = .transferring file) (hd : t.direction = .write)
    {payload : Bytes} (hl : payload.length ≤ t.blockSize) {file' : η} {store' : σ}
    (hw : Storage.write payload file store = (.ok (), file', store')) :
    t.onData store t.expected payload =
      (t.stored file' payload.length).acknowledge file' store' payload.length := by
  unfold stored onData
  simp only [h, hd, Nat.not_lt_of_le hl, ne_eq, not_true_eq_false, if_false, hw]

theorem onData_failed (h : t.phase = .transferring file) (hd : t.direction = .write)
    {payload : Bytes} (hl : payload.length ≤ t.blockSize) {e : StorageError} {file' : η} {store' : σ}
    (hw : Storage.write payload file store = (.error e, file', store')) :
    t.onData store t.expected payload = t.fail file' store' e := by
  simp only [onData, h, hd, Nat.not_lt_of_le hl, ne_eq, not_true_eq_false, if_false, hw]

theorem onData_large (h : t.phase = .transferring file) (hd : t.direction = .write)
    {payload : Bytes} (hl : t.blockSize < payload.length) (store : σ) :
    t.onData store t.expected payload =
      t.illegal store (ascii "DATA block larger than negotiated blksize") := by
  simp only [onData, h, hd, hl, ne_eq, not_true_eq_false, if_false, if_true]

theorem acknowledge_full {size : Nat} (hs : t.blockSize ≤ size) (file : η) (store : σ) :
    t.acknowledge file store size =
      ⟨.reply (Packet.bytes (.ack t.block)), { t with lastPacket := Packet.bytes (.ack t.block) },
        store, []⟩ := by
  simp only [acknowledge, Nat.not_lt_of_le hs, if_false]
  rfl

theorem acknowledge_ok {size : Nat} (hs : size < t.blockSize) {file' : η} {store' : σ}
    (hc : Storage.commit file store = (.ok (), file', store')) :
    ∃ log, t.acknowledge file store size =
      ⟨.closed (Packet.bytes (.ack t.block)), { t with phase := .completed },
        (Storage.release file' store').2, log⟩ := by
  simp only [acknowledge, hs, if_true, hc]
  exact complete_eq t file' store' _

theorem announceSize_kinds (t : Transfer η) (file : η) (store : σ) :
    (t.announceSize file store).choices.map Choice.kind = t.accepted.choices.map Choice.kind := by
  unfold announceSize
  split
  · rename_i h
    exact Accepted.kinds_set h.2
  · rfl

theorem announceSize_isEmpty (t : Transfer η) (file : η) (store : σ) :
    (t.announceSize file store).choices.isEmpty = t.accepted.choices.isEmpty := by
  have h := congrArg List.isEmpty (announceSize_kinds t file store)
  simpa using h

def begun (t : Transfer η) (file : η) (store : σ) : Transfer η :=
  { t with phase := .transferring file, accepted := t.announceSize file store }

theorem start_options (h : t.phase = .negotiating file) (ha : t.accepted.choices ≠ [])
    (store : σ) :
    ∃ log, t.start store =
      ⟨.opened (Packet.bytes (.optionAck (t.announceSize file store).fields)),
        { t.begun file store with
          lastPacket := Packet.bytes (.optionAck (t.announceSize file store).fields) },
        store, log⟩ := by
  have he : ¬(t.announceSize file store).choices.isEmpty := by
    rw [announceSize_isEmpty]
    simpa using ha
  simp only [start, h, firstReply, he]
  exact ⟨_, rfl⟩

theorem start_write (h : t.phase = .negotiating file) (hd : t.direction = .write)
    (ha : t.accepted.choices = []) (store : σ) :
    t.start store =
      ⟨.opened (Packet.bytes (.ack 0)),
        { t.begun file store with lastPacket := Packet.bytes (.ack 0) }, store, []⟩ := by
  have he : (t.announceSize file store).choices.isEmpty := by
    rw [announceSize_isEmpty]
    simpa using ha
  simp only [start, h, firstReply, he, if_true]
  unfold begun
  simp only [hd]
  rfl

theorem start_read (h : t.phase = .negotiating file) (hd : t.direction = .read)
    (ha : t.accepted.choices = []) {payload : Bytes} {file' : η} {store' : σ}
    (hr : Storage.read t.blockSize file store = (.ok payload, file', store')) :
    t.start store =
      ⟨.opened (Packet.bytes (.data (t.block + 1) payload)),
        { t.begun file store with
          phase := .transferring file'
          block := t.block + 1
          lastBlockSent := payload.length < t.blockSize
          transferred := t.transferred + payload.length
          lastPacket := Packet.bytes (.data (t.block + 1) payload) }, store', []⟩ := by
  have he : (t.announceSize file store).choices.isEmpty := by
    rw [announceSize_isEmpty]
    simpa using ha
  have hs := sendNextBlock_ok (t := t.begun file store) hr
  unfold begun at hs ⊢
  simp only [start, h, firstReply, he, if_true, hd] at hs ⊢
  rw [hs]
  rfl

theorem start_failed (h : t.phase = .negotiating file) (hd : t.direction = .read)
    (ha : t.accepted.choices = []) {e : StorageError} {file' : η} {store' : σ}
    (hr : Storage.read t.blockSize file store = (.error e, file', store')) :
    t.start store = (t.begun file store).fail file' store' e := by
  have he : (t.announceSize file store).choices.isEmpty := by
    rw [announceSize_isEmpty]
    simpa using ha
  have hs : (t.begun file store).sendNextBlock file store =
      (t.begun file store).fail file' store' e := by
    have hb : (t.begun file store).blockSize = t.blockSize := rfl
    simp only [sendNextBlock, hb, hr]
  unfold begun at hs ⊢
  simp only [start, h, firstReply, he, if_true, hd] at hs ⊢
  rw [hs]
  rfl

theorem react_over (h : t.phase.file? = none) (store : σ) (e : Event) :
    t.react store e = t.idle store := by
  cases e <;> cases hp : t.phase <;> simp_all [react, start, onAck, onData, onError, onTimeout,
    illegal, Phase.file?]

end Transfer
end Tftp
