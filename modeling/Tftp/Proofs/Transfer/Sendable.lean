import Tftp.Proofs.Server.Fitting
import Tftp.Proofs.Storage.Blamed
import Tftp.Proofs.Transfer.Promise

namespace Tftp

open Packet (bytes)

structure Sendable (packet : Bytes) : Prop where
  read : ∃ p, Packet.decode packet = .ok p ∧ ∀ d r, p ≠ .request d r
  size : packet.length ≤ 65468

theorem Packet.length_bytes (p : Packet) : p.bytes.length = 2 + p.body.length := by
  simp only [bytes, Bytes.ofWord, List.length_append, List.length_cons, List.length_nil]

theorem Packet.Representable.sendable {p : Packet} (h : p.Representable)
    (hp : ∀ d r, p ≠ .request d r) (size : p.body.length ≤ 65466) : Sendable p.bytes where
  read := ⟨p, Packet.decode_of_carries h.carries, hp⟩
  size := by
    rw [p.length_bytes]
    omega

theorem sendable_data (block : UInt16) {payload : Bytes} (h : payload.length ≤ maxBlockSize) :
    Sendable (bytes (.data block payload)) := by
  refine Packet.Representable.sendable (p := .data block payload) h nofun ?_
  rw [maxBlockSize] at h
  simp only [Packet.body, Bytes.ofWord, List.length_append, List.length_cons, List.length_nil]
  omega

theorem sendable_ack (block : UInt16) : Sendable (bytes (.ack block)) :=
  Packet.Representable.sendable (p := .ack block) trivial nofun (by simp [Packet.body, Bytes.ofWord])

theorem sendable_error (code : ErrorCode) {message : Bytes} (plain : 0 ∉ message)
    (short : message.length ≤ 100) : Sendable (bytes (.error code message)) := by
  refine Packet.Representable.sendable (p := .error code message) plain nofun ?_
  simp only [Packet.body, Bytes.ofWord, Bytes.field, List.length_append, List.length_cons,
    List.length_nil]
  omega

theorem ErrorCode.plain_name (c : ErrorCode) : 0 ∉ c.name ∧ c.name.length ≤ 100 := by
  unfold name
  repeat' split
  all_goals decide

theorem sendable_code (code : ErrorCode) : Sendable (bytes (.error code code.name)) :=
  sendable_error code code.plain_name.1 code.plain_name.2

theorem OptionField.length_bytes_le {options : List OptionField} {n : Nat}
    (h : ∀ o ∈ options, o.name.length + o.value.length + 2 ≤ n) :
    (OptionField.bytes options).length ≤ options.length * n := by
  induction options with
  | nil => exact Nat.zero_le _
  | cons o options ih =>
    simp only [List.mem_cons, forall_eq_or_imp] at h
    have hrest := ih h.2
    have hone := h.1
    simp only [OptionField.bytes, OptionField.toFields, List.flatMap_cons, Bytes.field,
      List.length_append, List.length_cons, List.length_nil, Nat.add_mul] at hrest ⊢
    omega

theorem Choice.InRange.length_field_le {c : Choice} (h : c.InRange) :
    c.field.name.length + c.field.value.length + 2 ≤ 29 := by
  have hname : c.kind.name.length ≤ 7 := by
    cases c.kind <;> decide
  have hvalue : c.value.length ≤ 20 := by
    rw [c.value_eq]
    exact length_decimal_le (Nat.lt_trans h.number_lt (by decide))
  change c.kind.name.length + c.value.length + 2 ≤ 29
  omega

namespace Accepted

variable {a : Accepted}

theorem Tellable.sendable (h : a.Tellable) : Sendable (bytes (.optionAck a.fields)) where
  read := ⟨_, a.decode_fields, nofun⟩
  size := by
    have hfields : (OptionField.bytes a.fields).length ≤ a.fields.length * 29 := by
      refine OptionField.length_bytes_le fun o ho => ?_
      obtain ⟨c, hc, rfl⟩ := List.mem_map.1 ho
      exact (h.inRange c hc).length_field_le
    have hlength : a.fields.length ≤ 3 := by simpa [fields] using h.length_le
    rw [Packet.length_bytes, Packet.body]
    omega

end Accepted

variable {σ η : Type}

/-- All that a transfer has to say of itself may be sent: its options, its blocks, and its last
packet once more. -/
def Transfer.Spoken (t : Transfer η) : Prop :=
  t.accepted.Tellable ∧ t.blockSize ≤ maxBlockSize ∧ (t.lastPacket ≠ [] → Sendable t.lastPacket)

structure Step.Spoken (s : Step σ η) : Prop where
  transfer : s.transfer.Spoken
  packet : s.action.packet ≠ [] → Sendable s.action.packet

theorem Step.Spoken.after {s : Step σ η} (h : s.Spoken) (log : List Log.Entry) :
    (s.after log).Spoken :=
  ⟨h.transfer, h.packet⟩

namespace Transfer

variable {t : Transfer η} {file : η} {store : σ}

theorem Spoken.idle (h : t.Spoken) (store : σ) (log : List Log.Entry) :
    (t.idle store log).Spoken :=
  ⟨h, fun hne => absurd rfl hne⟩

theorem Spoken.transmit (h : t.Spoken) (store : σ) {packet : Bytes}
    (hp : packet ≠ [] → Sendable packet) : (t.transmit store packet).Spoken :=
  ⟨⟨h.1, h.2.1, hp⟩, hp⟩

variable [Storage σ η]

theorem Spoken.complete (h : t.Spoken) (file : η) (store : σ) {packet : Bytes}
    (hp : packet ≠ [] → Sendable packet) : (t.complete file store packet).Spoken :=
  ⟨h, hp⟩

theorem Spoken.abort (h : t.Spoken) (file : η) (store : σ) {code : ErrorCode} {reason : Bytes}
    (hp : Sendable (bytes (.error code reason))) : (t.abort file store code reason).Spoken :=
  ⟨h, fun _ => hp⟩

theorem Spoken.fail (h : t.Spoken) (file : η) (store : σ) (e : StorageError) :
    (t.fail file store e).Spoken :=
  (h.abort file store (sendable_code e.code)).after _

theorem Spoken.illegal (h : t.Spoken) (store : σ) (reason : Bytes) :
    (t.illegal store reason).Spoken := by
  unfold Transfer.illegal
  split
  · exact h.idle store _
  · exact (h.abort _ store (sendable_code .illegalOperation)).after _

theorem Spoken.acknowledge (h : t.Spoken) (file : η) (store : σ) (size : Nat) :
    (t.acknowledge file store size).Spoken := by
  unfold Transfer.acknowledge
  dsimp only
  split
  · split
    · exact h.fail _ _ _
    · exact h.complete _ _ fun _ => sendable_ack _
  · exact h.transmit store fun _ => sendable_ack _

theorem Spoken.onData (h : t.Spoken) (store : σ) (block : UInt16) (payload : Bytes) :
    (t.onData store block payload).Spoken := by
  unfold Transfer.onData
  split
  · split
    · exact h.illegal store _
    · split
      · exact (h.transmit store h.2.2).after _
      · split
        · exact h.illegal store _
        · split
          · exact h.fail _ _ _
          · rename_i file' store' _
            exact Spoken.acknowledge (t := { t with
              phase := .transferring file'
              block := block
              retries := 0
              transferred := t.transferred + payload.length }) h file' store' payload.length
  · exact h.idle store _

theorem Spoken.onError (h : t.Spoken) (store : σ) (code : ErrorCode) (message : Bytes) :
    (t.onError store code message).Spoken := by
  unfold Transfer.onError
  split
  · exact h.idle store _
  · exact ⟨h, fun hne => absurd rfl hne⟩

theorem Spoken.onTimeout (h : t.Spoken) (store : σ) : (t.onTimeout store).Spoken := by
  unfold Transfer.onTimeout
  split
  · split
    · exact (h.abort _ store (sendable_error .notDefined (by decide) (by decide))).after _
    · exact ⟨h, h.2.2⟩
  · exact h.idle store _

section

variable (modest : Storage.Modest σ)

include modest

theorem Spoken.sendNextBlock (h : t.Spoken) (file : η) (store : σ) :
    (t.sendNextBlock file store).Spoken := by
  rcases hr : Storage.read t.blockSize file store with ⟨e | payload, file', store'⟩
  · have hfail : t.sendNextBlock file store = t.fail file' store' e := by
      simp only [Transfer.sendNextBlock, hr]
    exact hfail ▸ h.fail file' store' e
  · have hlength : payload.length ≤ maxBlockSize :=
      Nat.le_trans (modest t.blockSize file store payload (congrArg Prod.fst hr)) h.2.1
    have hsend := sendable_data (t.block + 1) hlength
    rw [sendNextBlock_ok hr]
    exact ⟨⟨h.1, h.2.1, fun _ => hsend⟩, fun _ => hsend⟩

theorem Spoken.onAck (h : t.Spoken) (store : σ) (block : UInt16) :
    (t.onAck store block).Spoken := by
  unfold Transfer.onAck
  split
  · split
    · exact h.illegal store _
    · split
      · exact h.idle store _
      · split
        · exact h.complete _ _ fun hne => absurd rfl hne
        · exact Spoken.sendNextBlock (t := { t with retries := 0 }) modest h _ _
  · exact h.idle store _

theorem Spoken.firstReply (h : t.Spoken) (file : η) (store : σ) :
    (t.firstReply file store).Spoken := by
  unfold Transfer.firstReply
  split
  · split
    · exact h.sendNextBlock modest file store
    · exact h.transmit store fun _ => sendable_ack 0
  · exact (h.transmit store fun _ => h.1.sendable).after _

omit modest in
theorem tellable_announceSize (h : t.accepted.Tellable) (file : η) (store : σ) :
    (t.announceSize file store).Tellable :=
  ⟨inRange_announceSize h.inRange file store, (announceSize_kinds t file store).symm ▸ h.distinct⟩

theorem Spoken.start (h : t.Spoken) (store : σ) : (t.start store).Spoken := by
  unfold Transfer.start
  split
  · rename_i file _
    have hfirst := Spoken.firstReply (t := { t with
      phase := .transferring file
      accepted := t.announceSize file store }) modest
      ⟨tellable_announceSize h.1 file store, h.2⟩ file store
    dsimp only
    split
    · exact hfirst
    · exact ⟨hfirst.transfer, hfirst.packet⟩
  · exact h.idle store _

theorem Spoken.react (h : t.Spoken) (store : σ) (e : Event) : (t.react store e).Spoken := by
  cases e with
  | start => exact h.start modest store
  | ack block => exact h.onAck modest store block
  | data block payload => exact h.onData store block payload
  | error code message => exact h.onError store code message
  | timeout => exact h.onTimeout store
  | illegal reason => exact h.illegal store reason

theorem lasting_spoken : Lasting σ (η := η) Spoken where
  new _ options _ _ :=
    ⟨Accepted.tellable_negotiate options, (blockSize_new ..).2, fun hne => absurd rfl hne⟩
  react store e h := (h.react modest store e).transfer

end

end Transfer
end Tftp
