import Tftp.Proofs.Server.Fitting
import Tftp.Proofs.Storage.Blamed
import Tftp.Proofs.Storage.Journal
import Tftp.Proofs.Transfer.Lifetime

namespace Tftp

open Packet (bytes)

theorem Journal.modest {σ η : Type} [Storage σ η] (modest : Storage.Modest σ) :
    Storage.Modest (Journal σ) :=
  fun n d j block hr => modest n d.file j.store block hr

namespace Transfer

/-- What the last packet of a transfer is, when these blocks were stored in its file. -/
inductive Latest {η : Type} (t : Transfer η) (blocks : List Bytes) : Prop
  | offered (accepted : t.accepted.choices ≠ []) (block : t.block = 0) (untaken : blocks = [])
      (packet : t.lastPacket = bytes (.optionAck t.accepted.fields))
  | sent (payload : Bytes) (direction : t.direction = .read) (size : payload.length ≤ t.blockSize)
      (packet : t.lastPacket = bytes (.data t.block payload))
  /-- Nothing is acknowledged before it has come, unless there were no options to offer. -/
  | acknowledged (direction : t.direction = .write)
      (taken : t.accepted.choices = [] ∨ blocks ≠ [])
      (packet : t.lastPacket = bytes (.ack t.block))

section

variable {σ η θ : Type} {t : Transfer η} {blocks : List Bytes}

theorem Latest.map (h : t.Latest blocks) (f : η → θ) : (t.map f).Latest blocks := by
  cases h with
  | offered accepted block untaken packet => exact .offered accepted block untaken packet
  | sent payload direction size packet => exact .sent payload direction size packet
  | acknowledged direction taken packet => exact .acknowledged direction taken packet

theorem Latest.retried (h : t.Latest blocks) (retries : Nat) :
    Latest { t with retries := retries } blocks := by
  cases h with
  | offered accepted block untaken packet => exact .offered accepted block untaken packet
  | sent payload direction size packet => exact .sent payload direction size packet
  | acknowledged direction taken packet => exact .acknowledged direction taken packet

end

section

variable {σ η : Type} [Storage σ η] {t : Transfer η} {file : η} {store : σ} {e : Event}
  {s : Step σ η} {packet : Bytes}

theorem Opening.lastPacket (h : Opening t file store s) (ha : s.action = .opened packet) :
    s.transfer.lastPacket = packet := by
  cases h with
  | offered _ action transfer | awaited _ _ action transfer | sent _ _ _ _ _ action transfer =>
    cases action.symm.trans ha
    rw [transfer]
  | failed _ _ _ _ action => cases action.symm.trans ha

theorem Course.lastPacket (h : Course t file store e s) (ha : s.action = .reply packet) :
    s.transfer.lastPacket = packet ∧
      (packet = t.lastPacket ∨ ∀ options, packet ≠ bytes (.optionAck options)) := by
  cases h with
  | unmoved action | closed _ action => cases action.symm.trans ha
  | resent _ _ action transfer | repeated _ _ _ _ _ action transfer =>
    cases action.symm.trans ha
    exact ⟨by rw [transfer], .inl rfl⟩
  | sent _ _ _ _ _ _ action transfer | stored _ _ _ _ _ _ action transfer =>
    cases action.symm.trans ha
    refine ⟨by rw [transfer]; rfl, .inr fun options hp => ?_⟩
    cases Packet.opcode_of_bytes hp

end

variable {σ η : Type}

/-- A transfer over a journal: it waits and has moved no block yet, it runs and keeps its latest
packet, or it is over. -/
inductive Abreast (t : Transfer (Draft η)) : Prop
  | waiting (draft : Draft η) (phase : t.phase = .negotiating draft) (block : t.block = 0)
      (untaken : draft.blocks = [])
  | running (draft : Draft η) (phase : t.phase = .transferring draft)
      (latest : t.Latest draft.blocks)
  | ended (phase : t.phase.file? = none)

variable [Storage σ η] {t : Transfer (Draft η)} {draft : Draft η} {j : Journal σ} {e : Event}
  {s : Step (Journal σ) (Draft η)}

theorem Opening.abreast (modest : Storage.Modest σ) (h : Opening t draft j s) (block : t.block = 0)
    (untaken : draft.blocks = []) : s.transfer.Abreast := by
  cases h with
  | offered accepted action transfer =>
    have hannounced : (t.announceSize draft j).choices ≠ [] := by
      rw [← List.isEmpty_eq_false_iff, announceSize_isEmpty]
      simpa using accepted
    rw [transfer]
    exact .running draft rfl (.offered hannounced block untaken rfl)
  | awaited accepted direction action transfer =>
    have hannounced : (t.announceSize draft j).choices = [] := by
      rw [← List.isEmpty_iff, announceSize_isEmpty]
      simpa using accepted
    rw [transfer]
    refine .running draft rfl (.acknowledged direction (.inl hannounced) ?_)
    exact congrArg (bytes <| .ack ·) block.symm
  | sent payload draft' accepted direction read action transfer =>
    obtain ⟨j', hread⟩ := read
    have hsize := Journal.modest modest t.blockSize draft j payload (congrArg Prod.fst hread)
    rw [transfer]
    exact .running draft' rfl (.sent payload direction hsize rfl)
  | failed draft' error direction read action ended => exact .ended ended

theorem blocks_of_write {block : Bytes} {draft' : Draft η} {j' : Journal σ}
    (h : Storage.write block draft j = (.ok (), draft', j')) :
    draft'.blocks = draft.blocks ++ [block] := by
  have hdone : (Storage.write block draft.file j.store).1 = .ok () := congrArg Prod.fst h
  have hdraft : draft.wrote _ block (Storage.write block draft.file j.store).1 = draft' :=
    congrArg (·.2.1) h
  rw [← hdraft, hdone]
  rfl

theorem Course.abreast (modest : Storage.Modest σ) (h : Course t draft j e s)
    (hp : t.phase = .transferring draft) (latest : t.Latest draft.blocks) :
    s.transfer.Abreast := by
  cases h with
  | unmoved action transfer | repeated _ _ _ _ _ action transfer =>
    rw [transfer]
    exact .running draft hp latest
  | resent event left action transfer =>
    rw [transfer]
    exact .running draft hp (latest.retried _)
  | sent payload draft' event direction more read action transfer =>
    obtain ⟨j', hread⟩ := read
    have hsize := Journal.modest modest t.blockSize draft j payload (congrArg Prod.fst hread)
    rw [transfer]
    exact .running draft' rfl (.sent payload direction hsize rfl)
  | stored payload draft' event direction full write action transfer =>
    obtain ⟨j', hwrite⟩ := write
    have htaken : draft'.blocks ≠ [] := by simp [blocks_of_write hwrite]
    rw [transfer]
    exact .running draft' rfl (.acknowledged direction (.inr htaken) rfl)
  | closed packet action ended => exact .ended ended

theorem Abreast.react (modest : Storage.Modest σ) (h : t.Abreast) (j : Journal σ) (e : Event) :
    (t.react j e).transfer.Abreast := by
  cases h with
  | waiting draft hp block untaken =>
    cases e with
    | start => exact (opening_start hp j).abreast modest block untaken
    | ack | data | timeout =>
      have hstage : t.phase.stage = .negotiating := by rw [hp]; rfl
      rw [react_premature hstage rfl]
      exact .waiting draft hp block untaken
    | error | illegal =>
      simp only [Transfer.react, onError, illegal, hp, Phase.file?]
      exact .ended rfl
  | running draft hp latest => exact (course_react hp j e).abreast modest hp latest
  | ended hp =>
    rw [react_over hp]
    exact .ended hp

theorem lasting_abreast (modest : Storage.Modest σ) :
    Lasting (Journal σ) (η := Draft η) Abreast where
  new := by
    intro d name file j j' peer options limits ho
    rw [Journal.openFile_journal] at ho
    rcases hs : Server.openFile d name j.store with ⟨_ | opened, store⟩ <;> rw [hs] at ho <;>
      cases ho
    exact .waiting _ rfl rfl rfl
  react j e h := h.react modest j e

end Transfer
end Tftp
