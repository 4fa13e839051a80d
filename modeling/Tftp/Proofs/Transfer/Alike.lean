import Tftp.Proofs.Storage.Independent
import Tftp.Proofs.Transfer.Outcome
import Tftp.Proofs.Transfer.Reaction
import Tftp.Proofs.Transfer.Simulation

namespace Tftp

variable {σ η ω : Type}

def Transfer.seen (look : η → σ → ω) (store : σ) (t : Transfer η) : Transfer ω := t.map (look · store)

structure Step.Alike (look : η → σ → ω) (a b : Step σ η) : Prop where
  action : a.action = b.action
  seen : a.transfer.seen look a.store = b.transfer.seen look b.store

theorem Step.Alike.of_eq {look : η → σ → ω} {a a' b b' : Step σ η} (ha : a = a') (hb : b = b')
    (h : a'.Alike look b') : a.Alike look b := ha ▸ hb ▸ h

namespace Transfer

variable {look : η → σ → ω} {t : Transfer η} {file file' : η} {store store' : σ}

def onFile (t : Transfer η) (file : η) : Transfer η := { t with phase := .transferring file }

theorem onFile_of_phase (h : t.phase = .transferring file) : t.onFile file = t := by
  rw [onFile, ← h]

theorem seen_onFile (t : Transfer η) (h : look file store = look file' store') :
    (t.onFile file).seen look store = (t.onFile file').seen look store' := by
  simp [seen, onFile, Transfer.map, Phase.map, h]

theorem of_seen_onFile {u : Transfer η}
    (h : (t.onFile file).seen look store = u.seen look store') :
    ∃ file', u = t.onFile file' ∧ look file store = look file' store' := by
  obtain ⟨_, _, _, _, _, _, _, phase⟩ := u
  simp only [seen, onFile, Transfer.map, Transfer.mk.injEq] at h
  obtain ⟨rfl, rfl, rfl, rfl, rfl, rfl, rfl, hp, rfl, rfl, rfl, rfl, rfl⟩ := h
  cases phase with
  | transferring file' => exact ⟨file', rfl, Phase.transferring.inj hp⟩
  | negotiating | completed | aborted => cases hp

variable [Storage σ η] {I : List η → σ → Prop} {rest rest' : List η}

section

variable (k : Storage.Independent I look) (h : I (file :: rest) store)
  (h' : I (file' :: rest') store') (hl : look file store = look file' store') (t : Transfer η)

include k h h' hl

theorem alike_sendNextBlock :
    ((t.sendNextBlock file store).Alike look (t.sendNextBlock file' store')) := by
  obtain ⟨hgot, hlook⟩ := k.read t.blockSize h h' hl
  rcases hr : Storage.read t.blockSize file store with ⟨got, f, s⟩
  rcases hr' : Storage.read t.blockSize file' store' with ⟨got', f', s'⟩
  rw [hr, hr'] at hgot hlook
  dsimp only at hgot hlook
  subst hgot
  cases got with
  | error e =>
    simp only [sendNextBlock, hr, hr']
    exact ⟨rfl, rfl⟩
  | ok payload =>
    rw [sendNextBlock_ok hr, sendNextBlock_ok hr']
    exact ⟨rfl, seen_onFile { t with
      block := t.block + 1
      lastBlockSent := payload.length < t.blockSize
      transferred := t.transferred + payload.length
      lastPacket := Packet.bytes (.data (t.block + 1) payload) } hlook⟩

theorem alike_onAck (block : UInt16) :
    ((t.onFile file).onAck store block).Alike look ((t.onFile file').onAck store' block) := by
  cases hd : t.direction with
  | write =>
    simp only [onAck, onFile, hd]
    exact ⟨rfl, rfl⟩
  | read =>
    by_cases hb : block = t.block
    · cases hb
      cases hlast : t.lastBlockSent with
      | true =>
        obtain ⟨_, he⟩ := onAck_last (t := t.onFile file) rfl hd hlast store
        obtain ⟨_, he'⟩ := onAck_last (t := t.onFile file') rfl hd hlast store'
        exact .of_eq he he' ⟨rfl, rfl⟩
      | false =>
        have he := onAck_next (t := t.onFile file) rfl hd hlast store
        have he' := onAck_next (t := t.onFile file') rfl hd hlast store'
        exact .of_eq he he' (alike_sendNextBlock k h h' hl { t with retries := 0 })
    · obtain ⟨_, he⟩ := onAck_stale (t := t.onFile file) rfl hd hb store
      obtain ⟨_, he'⟩ := onAck_stale (t := t.onFile file') rfl hd hb store'
      exact .of_eq he he' ⟨rfl, t.seen_onFile hl⟩

theorem alike_acknowledge (size : Nat) :
    ((t.onFile file).acknowledge file store size).Alike look
      ((t.onFile file').acknowledge file' store' size) := by
  by_cases hs : size < t.blockSize
  · obtain ⟨hdone, -⟩ := k.commit h h' hl
    rcases hc : Storage.commit file store with ⟨done, f, s⟩
    rcases hc' : Storage.commit file' store' with ⟨done', f', s'⟩
    rw [hc, hc'] at hdone
    dsimp only at hdone
    subst hdone
    cases done with
    | error e =>
      simp only [acknowledge, onFile, hs, if_true, hc, hc']
      exact ⟨rfl, rfl⟩
    | ok done =>
      obtain ⟨_, he⟩ := acknowledge_ok (t := t.onFile file) hs hc
      obtain ⟨_, he'⟩ := acknowledge_ok (t := t.onFile file') hs hc'
      exact .of_eq he he' ⟨rfl, rfl⟩
  · have hs := Nat.le_of_not_lt hs
    exact .of_eq (acknowledge_full (t := t.onFile file) hs file store)
      (acknowledge_full (t := t.onFile file') hs file' store')
      ⟨rfl, seen_onFile { t with lastPacket := Packet.bytes (.ack t.block) } hl⟩

theorem alike_onData (block : UInt16) (payload : Bytes) :
    ((t.onFile file).onData store block payload).Alike look
      ((t.onFile file').onData store' block payload) := by
  cases hd : t.direction with
  | read =>
    simp only [onData, onFile, hd]
    exact ⟨rfl, rfl⟩
  | write =>
    by_cases hb : block = t.expected
    · cases hb
      by_cases hs : payload.length ≤ t.blockSize
      · obtain ⟨hdone, hlook⟩ := k.write payload h h' hl
        rcases hw : Storage.write payload file store with ⟨done, f, s⟩
        rcases hw' : Storage.write payload file' store' with ⟨done', f', s'⟩
        rw [hw, hw'] at hdone hlook
        dsimp only at hdone hlook
        subst hdone
        cases done with
        | error e =>
          have he := onData_failed (t := t.onFile file) rfl hd hs hw
          have he' := onData_failed (t := t.onFile file') rfl hd hs hw'
          exact .of_eq he he' ⟨rfl, rfl⟩
        | ok done =>
          have he := onData_ok (t := t.onFile file) rfl hd hs hw
          have he' := onData_ok (t := t.onFile file') rfl hd hs hw'
          refine .of_eq he he' ?_
          have hi := k.kept.write hw h
          have hi' := k.kept.write hw' h'
          exact alike_acknowledge k hi hi' hlook (t.stored f payload.length) payload.length
      · have hs := Nat.lt_of_not_le hs
        have he := onData_large (t := t.onFile file) rfl hd hs store
        have he' := onData_large (t := t.onFile file') rfl hd hs store'
        exact .of_eq he he' ⟨rfl, rfl⟩
    · obtain ⟨_, he⟩ := onData_stale (t := t.onFile file) rfl hd hb store payload
      obtain ⟨_, he'⟩ := onData_stale (t := t.onFile file') rfl hd hb store' payload
      exact .of_eq he he' ⟨rfl, t.seen_onFile hl⟩

omit k h h' in
theorem alike_onTimeout :
    ((t.onFile file).onTimeout store).Alike look ((t.onFile file').onTimeout store') := by
  by_cases hr : t.retries < t.maxRetries
  · obtain ⟨_, he⟩ := onTimeout_resend (t := t.onFile file) rfl hr store
    obtain ⟨_, he'⟩ := onTimeout_resend (t := t.onFile file') rfl hr store'
    exact .of_eq he he' ⟨rfl, seen_onFile { t with retries := t.retries + 1 } hl⟩
  · have hr := Nat.le_of_not_lt hr
    obtain ⟨_, he⟩ := onTimeout_abort (t := t.onFile file) rfl hr store
    obtain ⟨_, he'⟩ := onTimeout_abort (t := t.onFile file') rfl hr store'
    exact .of_eq he he' ⟨rfl, rfl⟩

theorem alike_react (e : Event) :
    ((t.onFile file).react store e).Alike look ((t.onFile file').react store' e) := by
  cases e with
  | start => exact ⟨rfl, t.seen_onFile hl⟩
  | ack block => exact alike_onAck k h h' hl t block
  | data block payload => exact alike_onData k h h' hl t block payload
  | error code message => exact ⟨rfl, rfl⟩
  | timeout => exact alike_onTimeout hl t
  | illegal reason => exact ⟨rfl, rfl⟩

end

end Transfer
end Tftp
