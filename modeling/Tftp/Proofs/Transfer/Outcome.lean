import Tftp.Proofs.Packet.Opcode
import Tftp.Proofs.Transfer.Run

namespace Tftp
namespace Transfer

structure Running {η : Type} (t : Transfer η) : Prop where
  phase : ∃ file, t.phase = .transferring file
  lastPacket : t.lastPacket ≠ []
  retries : t.retries ≤ t.maxRetries

inductive Outcome {σ η : Type} (t : Transfer η) (s : Step σ η) : Prop
  | unmoved (action : s.action = .noReply) (transfer : s.transfer = t)
  | replied (packet : Bytes) (action : s.action = .reply packet) (sent : packet ≠ [])
      (running : s.transfer.Running)
  | closed (packet : Bytes) (action : s.action = .closed packet)
      (ended : s.transfer.phase.file? = none)

variable {σ η : Type} [Storage σ η] {t u : Transfer η} {store : σ} {file : η}

theorem outcome_sendNextBlock (hr : u.retries ≤ u.maxRetries) :
    Outcome t (u.sendNextBlock file store) := by
  unfold sendNextBlock
  split
  · exact .closed _ rfl rfl
  · exact .replied _ rfl (Packet.bytes_ne_nil _) ⟨⟨_, rfl⟩, Packet.bytes_ne_nil _, hr⟩

theorem outcome_illegal (reason : Bytes) : Outcome t (t.illegal store reason) := by
  unfold illegal
  split
  · exact .unmoved rfl rfl
  · exact .closed _ rfl rfl

theorem outcome_onAck (block : UInt16) : Outcome t (t.onAck store block) := by
  unfold onAck
  split
  · split
    · exact outcome_illegal _
    · split
      · exact .unmoved rfl rfl
      · split
        · exact .closed _ rfl rfl
        · exact outcome_sendNextBlock (Nat.zero_le _)
  · exact .unmoved rfl rfl

theorem outcome_acknowledge (size : Nat) (hp : ∃ file, u.phase = .transferring file)
    (hr : u.retries ≤ u.maxRetries) : Outcome t (u.acknowledge file store size) := by
  unfold acknowledge
  dsimp only
  split
  · split
    · exact .closed _ rfl rfl
    · exact .closed _ rfl rfl
  · exact .replied _ rfl (Packet.bytes_ne_nil _) ⟨hp, Packet.bytes_ne_nil _, hr⟩

theorem Running.onData (h : t.Running) (block : UInt16) (payload : Bytes) :
    Outcome t (t.onData store block payload) := by
  unfold Transfer.onData
  split
  · split
    · exact outcome_illegal _
    · split
      · exact .replied _ rfl h.lastPacket ⟨h.phase, h.lastPacket, h.retries⟩
      · split
        · exact outcome_illegal _
        · split
          · exact .closed _ rfl rfl
          · exact outcome_acknowledge _ ⟨_, rfl⟩ (Nat.zero_le _)
  · exact .unmoved rfl rfl

theorem outcome_onError (code : ErrorCode) (message : Bytes) :
    Outcome t (t.onError store code message) := by
  unfold onError
  split
  · exact .unmoved rfl rfl
  · exact .closed _ rfl rfl

theorem Running.onTimeout (h : t.Running) :
    Outcome t (t.onTimeout store) ∧ (t.onTimeout store).action ≠ .noReply := by
  obtain ⟨file, hp⟩ := h.phase
  unfold Transfer.onTimeout
  split
  · split
    · exact ⟨.closed _ rfl rfl, nofun⟩
    · rename_i hr
      exact ⟨.replied _ rfl h.lastPacket ⟨h.phase, h.lastPacket, Nat.lt_of_not_le hr⟩, nofun⟩
  · rename_i hn
    exact absurd hp (hn file)

theorem outcome_start (store : σ) (hp : t.phase = .negotiating file)
    (hr : t.retries ≤ t.maxRetries) :
    (∃ packet, (t.start store).action = .opened packet ∧ packet ≠ [] ∧
        (t.start store).transfer.Running) ∨
      ∃ packet, (t.start store).action = .closed packet ∧
        (t.start store).transfer.phase.file? = none := by
  have hfirst : ∀ u : Transfer η, u.phase = .transferring file → u.retries ≤ u.maxRetries →
      Outcome t (u.firstReply file store) ∧ (u.firstReply file store).action ≠ .noReply := by
    intro u hu hru
    unfold firstReply
    split
    · split
      · refine ⟨outcome_sendNextBlock hru, ?_⟩
        unfold sendNextBlock
        split <;> nofun
      · exact ⟨.replied _ rfl (Packet.bytes_ne_nil _) ⟨⟨_, hu⟩, Packet.bytes_ne_nil _, hru⟩, nofun⟩
    · exact ⟨.replied _ rfl (Packet.bytes_ne_nil _) ⟨⟨_, hu⟩, Packet.bytes_ne_nil _, hru⟩, nofun⟩
  obtain ⟨ho, hn⟩ := hfirst { t with
    phase := .transferring file
    accepted := t.announceSize file store } rfl hr
  unfold start
  simp only [hp]
  cases ho with
  | unmoved action transfer => exact absurd action hn
  | replied packet action sent running =>
    simp only [action]
    exact .inl ⟨packet, rfl, sent, running⟩
  | closed packet action ended =>
    simp only [action]
    exact .inr ⟨packet, rfl, ended⟩

theorem Running.react (h : t.Running) (e : Event) : Outcome t (t.react store e) := by
  cases e with
  | start =>
    obtain ⟨file, hp⟩ := h.phase
    change Outcome t (t.start store)
    unfold Transfer.start
    split
    · rename_i hn
      simp [hp] at hn
    · exact .unmoved rfl rfl
  | ack block => exact outcome_onAck block
  | data block payload => exact h.onData block payload
  | error code message => exact outcome_onError code message
  | timeout => exact h.onTimeout.1
  | illegal reason => exact outcome_illegal reason

end Transfer
end Tftp
