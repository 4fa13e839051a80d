import Tftp.Proofs.Transfer.Outcome
import Tftp.Proofs.Transfer.Reaction

namespace Tftp
namespace Transfer

variable {σ η : Type}

def advanced (t : Transfer η) (file : η) (payload : Bytes) : Transfer η :=
  { t with
    phase := .transferring file
    block := t.block + 1
    retries := 0
    lastBlockSent := payload.length < t.blockSize
    transferred := t.transferred + payload.length
    lastPacket := Packet.bytes (.data (t.block + 1) payload) }

def acknowledged (t : Transfer η) (file : η) (size : Nat) : Transfer η :=
  { t.stored file size with lastPacket := Packet.bytes (.ack t.expected) }

variable [Storage σ η]

inductive Course (t : Transfer η) (file : η) (store : σ) (e : Event) (s : Step σ η) : Prop
  | unmoved (action : s.action = .noReply) (transfer : s.transfer = t)
  | resent (event : e = .timeout) (left : t.retries < t.maxRetries)
      (action : s.action = .reply t.lastPacket)
      (transfer : s.transfer = { t with retries := t.retries + 1 })
  | repeated (block : UInt16) (payload : Bytes) (event : e = .data block payload)
      (direction : t.direction = .write) (stale : block ≠ t.expected)
      (action : s.action = .reply t.lastPacket) (transfer : s.transfer = t)
  | sent (payload : Bytes) (file' : η) (event : e = .ack t.block) (direction : t.direction = .read)
      (more : t.lastBlockSent = false)
      (read : ∃ store', Storage.read t.blockSize file store = (.ok payload, file', store'))
      (action : s.action = .reply (Packet.bytes (.data (t.block + 1) payload)))
      (transfer : s.transfer = t.advanced file' payload)
  | stored (payload : Bytes) (file' : η) (event : e = .data t.expected payload)
      (direction : t.direction = .write) (full : payload.length = t.blockSize)
      (write : ∃ store', Storage.write payload file store = (.ok (), file', store'))
      (action : s.action = .reply (Packet.bytes (.ack t.expected)))
      (transfer : s.transfer = t.acknowledged file' payload.length)
  | closed (packet : Bytes) (action : s.action = .closed packet)
      (ended : s.transfer.phase.file? = none)
      (final : ∀ block payload, packet ≠ Packet.bytes (.data block payload))

variable {t : Transfer η} {file : η} {store : σ} {e : Event}

omit [Storage σ η] in
theorem ne_data_of_opcode {p : Packet} (h : p.opcode ≠ 3) (block : UInt16) (payload : Bytes) :
    p.bytes ≠ Packet.bytes (.data block payload) :=
  fun hp => h (Packet.opcode_of_bytes hp)

theorem Course.of_illegal {s : Step σ η} (hp : t.phase = .transferring file) {reason : Bytes}
    (hs : s = t.illegal store reason) : Course t file store e s := by
  have ha : ∃ log, s =
      (t.abort file store .illegalOperation (ascii "illegal operation")).after log := by
    rw [hs]
    simp only [illegal, hp, Phase.file?]
    exact ⟨_, rfl⟩
  obtain ⟨log, rfl⟩ := ha
  exact .closed _ rfl rfl (ne_data_of_opcode (by simp [Packet.opcode]))

theorem Course.of_fail {s : Step σ η} {u : Transfer η} {file' : η} {store' : σ}
    {error : StorageError} (hs : s = u.fail file' store' error) : Course t file store e s := by
  subst hs
  exact .closed _ rfl rfl (ne_data_of_opcode (by simp [Packet.opcode]))

theorem course_onAck (hp : t.phase = .transferring file) (block : UInt16) :
    Course t file store (.ack block) (t.onAck store block) := by
  cases hd : t.direction with
  | write => exact .of_illegal hp (by simp only [onAck, hp, hd]; rfl)
  | read =>
    by_cases hb : block = t.block
    · subst hb
      cases hl : t.lastBlockSent with
      | true =>
        obtain ⟨log, hlast⟩ := onAck_last hp hd hl store
        rw [hlast]
        exact .closed _ rfl rfl fun _ _ h => Packet.bytes_ne_nil _ h.symm
      | false =>
        rw [onAck_next hp hd hl store]
        rcases hr : Storage.read t.blockSize file store with ⟨_ | payload, file', store'⟩
        · exact .of_fail (by simp only [sendNextBlock, hr]; rfl)
        · rw [sendNextBlock_ok (t := { t with retries := 0 }) hr]
          exact .sent payload file' rfl hd hl ⟨store', hr⟩ rfl rfl
    · obtain ⟨log, hstale⟩ := onAck_stale hp hd hb store
      rw [hstale]
      exact .unmoved rfl rfl

theorem course_onData (hp : t.phase = .transferring file) (block : UInt16) (payload : Bytes) :
    Course t file store (.data block payload) (t.onData store block payload) := by
  cases hd : t.direction with
  | read => exact .of_illegal hp (by simp only [onData, hp, hd]; rfl)
  | write =>
    by_cases hb : block = t.expected
    · subst hb
      rcases Nat.lt_or_ge t.blockSize payload.length with hl | hl
      · exact .of_illegal hp (onData_large hp hd hl store)
      · rcases hw : Storage.write payload file store with ⟨_ | _, file', store'⟩
        · exact .of_fail (onData_failed hp hd hl hw)
        · rw [onData_ok hp hd hl hw]
          rcases Nat.lt_or_eq_of_le hl with hs | hs
          · -- a short block is the last one, whatever comes of the commit
            rcases hc : Storage.commit file' store' with ⟨error | _, file'', store''⟩
            · have hfail : (t.stored file' payload.length).acknowledge file' store'
                  payload.length = (t.stored file' payload.length).fail file'' store'' error := by
                simp only [acknowledge, stored, hs, if_true, hc]
              exact .of_fail hfail
            · obtain ⟨log, hdone⟩ := acknowledge_ok (t := t.stored file' payload.length) hs hc
              rw [hdone]
              exact .closed _ rfl rfl (ne_data_of_opcode (by simp [Packet.opcode]))
          · rw [acknowledge_full (t := t.stored file' payload.length) (Nat.le_of_eq hs.symm)]
            exact .stored payload file' rfl hd hs ⟨store', hw⟩ rfl rfl
    · obtain ⟨log, hstale⟩ := onData_stale hp hd hb store payload
      rw [hstale]
      exact .repeated block payload rfl hd hb rfl rfl

theorem course_onTimeout (hp : t.phase = .transferring file) :
    Course t file store .timeout (t.onTimeout store) := by
  rcases Nat.lt_or_ge t.retries t.maxRetries with hr | hr
  · obtain ⟨log, hresend⟩ := onTimeout_resend hp hr store
    rw [hresend]
    exact .resent rfl hr rfl rfl
  · obtain ⟨log, habort⟩ := onTimeout_abort hp hr store
    rw [habort]
    exact .closed _ rfl rfl (ne_data_of_opcode (by simp [Packet.opcode]))

theorem course_react (hp : t.phase = .transferring file) (store : σ) (e : Event) :
    Course t file store e (t.react store e) := by
  cases e with
  | start =>
    have hidle : t.start store = t.idle store := by simp only [start, hp]
    exact .unmoved (congrArg Step.action hidle) (congrArg Step.transfer hidle)
  | ack block => exact course_onAck hp block
  | data block payload => exact course_onData hp block payload
  | error code message =>
    simp only [react, onError, hp, Phase.file?]
    exact .closed _ rfl rfl fun _ _ h => Packet.bytes_ne_nil _ h.symm
  | timeout => exact course_onTimeout hp
  | illegal reason => exact .of_illegal hp rfl

theorem Course.accepted {s : Step σ η} (h : Course t file store e s) {packet : Bytes}
    (ha : s.action = .reply packet) : s.transfer.accepted = t.accepted := by
  cases h with
  | unmoved action | closed _ action => cases action.symm.trans ha
  | resent _ _ _ transfer | repeated _ _ _ _ _ _ transfer | sent _ _ _ _ _ _ _ transfer
  | stored _ _ _ _ _ _ _ transfer => exact (congrArg Transfer.accepted transfer).trans rfl

/-- What a transfer begins with: the options that it has accepted, or if there are none, the first
block or an acknowledgement of none. -/
inductive Opening (t : Transfer η) (file : η) (store : σ) (s : Step σ η) : Prop
  | offered (accepted : t.accepted.choices ≠ [])
      (action : s.action = .opened (Packet.bytes (.optionAck (t.announceSize file store).fields)))
      (transfer : s.transfer = { t.begun file store with
        lastPacket := Packet.bytes (.optionAck (t.announceSize file store).fields) })
  | awaited (accepted : t.accepted.choices = []) (direction : t.direction = .write)
      (action : s.action = .opened (Packet.bytes (.ack 0)))
      (transfer : s.transfer = { t.begun file store with lastPacket := Packet.bytes (.ack 0) })
  | sent (payload : Bytes) (file' : η) (accepted : t.accepted.choices = [])
      (direction : t.direction = .read)
      (read : ∃ store', Storage.read t.blockSize file store = (.ok payload, file', store'))
      (action : s.action = .opened (Packet.bytes (.data (t.block + 1) payload)))
      (transfer : s.transfer = { t.begun file store with
        phase := .transferring file'
        block := t.block + 1
        lastBlockSent := payload.length < t.blockSize
        transferred := t.transferred + payload.length
        lastPacket := Packet.bytes (.data (t.block + 1) payload) })
  | failed (file' : η) (e : StorageError) (direction : t.direction = .read)
      (read : ∃ store', Storage.read t.blockSize file store = (.error e, file', store'))
      (action : s.action = .closed (Packet.bytes (.error e.code e.code.name)))
      (ended : s.transfer.phase.file? = none)

theorem opening_start (hp : t.phase = .negotiating file) (store : σ) :
    Opening t file store (t.start store) := by
  by_cases ha : t.accepted.choices = []
  · cases hd : t.direction with
    | write =>
      rw [start_write hp hd ha]
      exact .awaited ha hd rfl rfl
    | read =>
      rcases hr : Storage.read t.blockSize file store with ⟨e | payload, file', store'⟩
      · rw [start_failed hp hd ha hr]
        exact .failed file' e hd ⟨store', hr⟩ rfl rfl
      · rw [start_read hp hd ha hr]
        exact .sent payload file' ha hd ⟨store', hr⟩ rfl rfl
  · obtain ⟨log, hs⟩ := start_options hp ha store
    rw [hs]
    exact .offered ha rfl rfl

theorem Opening.packet_ne_nil {s : Step σ η} (h : Opening t file store s) :
    s.action.packet ≠ [] := by
  cases h with
  | offered _ action | awaited _ _ action | sent _ _ _ _ _ action | failed _ _ _ _ action =>
    rw [action]
    exact Packet.bytes_ne_nil _

end Transfer
end Tftp
