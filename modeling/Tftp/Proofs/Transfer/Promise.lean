import Tftp.Proofs.Negotiation.ReadBack
import Tftp.Proofs.Storage.Kept
import Tftp.Proofs.Storage.Reliable
import Tftp.Proofs.Transfer.Course
import Tftp.Proofs.Transfer.Frame

namespace Tftp

open Packet (bytes)

/-- The number that a packet promises for a kind, if it is an OACK that names it. -/
def promised? (k : OptionKind) (packet : Bytes) : Option Nat :=
  match Packet.decode packet with
  | .ok (.optionAck options) =>
    (options.find? (·.name = k.name)).bind fun o => (decimal? o.value).map UInt64.toNat
  | _ => none

namespace Accepted

variable {a : Accepted}

theorem promised?_fields (h : a.InRange) (k : OptionKind) :
    promised? k (bytes (.optionAck a.fields)) = (a.choice? k).map Choice.number := by
  rw [promised?, decode_fields]
  simp only [find?_fields]
  cases hc : a.choice? k with
  | none => rfl
  | some c =>
    have hlt := (h c (List.mem_of_find?_eq_some hc)).number_lt
    simp only [Option.map_some, Option.bind_some, Choice.field, Choice.value_eq,
      decimal?_decimal hlt]
    exact congrArg some (toNat_toUInt64 hlt)

end Accepted

theorem decode_ne_optionAck {p : Packet} (h : p.opcode ≠ 6) (options : List OptionField) :
    Packet.decode p.bytes ≠ .ok (.optionAck options) := fun hd =>
  h (Packet.opcode_of_bytes (Packet.decode_eq_ok_iff.1 hd).representable.2.symm)

theorem promised?_of_opcode {p : Packet} (h : p.opcode ≠ 6) (k : OptionKind) :
    promised? k p.bytes = none := by
  unfold promised?
  split
  · rename_i options hd
    exact absurd hd (decode_ne_optionAck h options)
  · rfl

variable {σ η : Type} [Storage σ η] {P : η → σ → Prop} {t : Transfer η} {file : η} {store : σ}
  {packet : Bytes}

theorem Storage.Reliable.kept (hP : Storage.Reliable P) :
    Storage.Kept (fun _ : σ => False) (fun _ => True) fun (files : List η) store =>
      files.length ≤ 1 ∧ ∀ file ∈ files, P file store where
  perm hp h := ⟨hp.length_eq ▸ h.1, fun file hf => h.2 file (hp.mem_iff.2 hf)⟩
  opened _ hr := hr.elim
  refused _ hr := hr.elim
  read := by
    rintro n file file' files store store' got hr ⟨hone, h⟩
    obtain rfl : files = [] := by simpa using hone
    obtain ⟨payload, f, st, hread, -, hf⟩ := hP.read n (h file List.mem_cons_self)
    cases hr.symm.trans hread
    exact ⟨Nat.le_refl 1, by simpa using hf⟩
  write := by
    rintro block file file' files store store' done hw ⟨hone, h⟩
    obtain rfl : files = [] := by simpa using hone
    obtain ⟨f, st, hwrite, hf⟩ := hP.write block (h file List.mem_cons_self)
    cases hw.symm.trans hwrite
    exact ⟨Nat.le_refl 1, by simpa using hf⟩
  commit := by
    rintro file file' files store store' done hc ⟨hone, h⟩
    obtain rfl : files = [] := by simpa using hone
    obtain ⟨f, st, hcommit, hf⟩ := hP.commit (h file List.mem_cons_self)
    cases hc.symm.trans hcommit
    exact ⟨Nat.le_refl 1, by simpa using hf⟩
  release := by
    rintro file files store ⟨hone, -⟩
    obtain rfl : files = [] := by simpa using hone
    exact ⟨Nat.zero_le 1, nofun⟩

def Step.Good (P : η → σ → Prop) (s : Step σ η) : Prop :=
  ∀ file ∈ s.transfer.phase.file?, P file s.store

theorem Storage.Reliable.good_react (hP : Storage.Reliable P)
    (h : ∀ file ∈ t.phase.file?, P file store) (e : Transfer.Event) :
    (t.react store e).Good P := by
  have hfiles : t.files.length ≤ 1 ∧ ∀ file ∈ t.files, P file store :=
    ⟨by unfold Transfer.files; cases t.phase.file? <;> simp, by simpa [Transfer.files] using h⟩
  have hnext : ((t.react store e).transfer.files ++ []).length ≤ 1 ∧
      ∀ file ∈ (t.react store e).transfer.files ++ [], P file (t.react store e).store :=
    hP.kept.react e (by simpa using hfiles)
  simpa [Transfer.files, Step.Good] using hnext.2

theorem Storage.Reliable.good_run (hP : Storage.Reliable P) {s : Step σ η} (h : s.Good P)
    (events : List Transfer.Event) : (s.run events).Good P := by
  induction events generalizing s with
  | nil => exact h
  | cons e events ih => exact ih (hP.good_react h e)

namespace Transfer

structure Announces (t : Transfer η) (file : η) (store : σ) (packet : Bytes) : Prop where
  listed : (∃ options, Packet.decode packet = .ok (.optionAck options)) ↔ t.accepted.choices ≠ []
  names : ∀ options, Packet.decode packet = .ok (.optionAck options) →
    options.map (·.name) = t.accepted.choices.map (·.kind.name)
  numbers : ∀ k, promised? k packet = (t.accepted.choice? k).map fun c =>
    if t.direction = .read ∧ k = .transferSize then (Storage.size file store).toNat else c.number

theorem inRange_announceSize (h : t.accepted.InRange) (file : η) (store : σ) :
    (t.announceSize file store).InRange := by
  unfold announceSize
  split
  · exact h.set trivial
  · exact h

theorem choice?_announceSize (t : Transfer η) (file : η) (store : σ) (k : OptionKind) :
    ((t.announceSize file store).choice? k).map Choice.number = (t.accepted.choice? k).map fun c =>
      if t.direction = .read ∧ k = .transferSize then (Storage.size file store).toNat
      else c.number := by
  unfold announceSize
  by_cases hd : t.direction = .read
  · by_cases hh : t.accepted.has .transferSize
    · rw [if_pos ⟨hd, hh⟩, Accepted.choice?_set_transferSize hh]
      by_cases hk : k = .transferSize
      · obtain ⟨c, hc⟩ :=
          Option.isSome_iff_exists.1 ((t.accepted.isSome_choice? .transferSize).trans hh)
        simp [hk, hd, hc, Choice.number]
      · simp [hk]
    · rw [if_neg fun h => hh h.2]
      by_cases hk : k = .transferSize
      · have hnone : t.accepted.choice? .transferSize = none := by
          rw [← Option.not_isSome_iff_eq_none, Accepted.isSome_choice?]
          exact hh
        rw [hk, hnone]
        rfl
      · simp [hk]
  · simp [hd]

theorem Announces.of_opcode (h : t.accepted.choices = []) {p : Packet} (hp : p.opcode ≠ 6) :
    Announces t file store p.bytes where
  listed := iff_of_false (fun ⟨options, hd⟩ => decode_ne_optionAck hp options hd) (by simp [h])
  names options hd := absurd hd (decode_ne_optionAck hp options)
  numbers k := by
    rw [promised?_of_opcode hp, Accepted.choice?, h]
    rfl

theorem Opening.announces {s : Step σ η} (h : Opening t file store s)
    (ha : s.action = .opened packet) (hr : t.accepted.InRange) :
    Announces t file store packet := by
  cases h with
  | offered accepted action =>
    cases action.symm.trans ha
    have hdecode := (t.announceSize file store).decode_fields
    exact {
      listed := iff_of_true ⟨_, hdecode⟩ accepted
      names := fun options hd => by
        cases hdecode.symm.trans hd
        have hkinds := congrArg (List.map OptionKind.name) (announceSize_kinds t file store)
        simpa [Accepted.fields, Function.comp_def, Choice.field] using hkinds
      numbers := fun k => by
        rw [Accepted.promised?_fields (inRange_announceSize hr file store)]
        exact choice?_announceSize t file store k }
  | awaited accepted direction action =>
    cases action.symm.trans ha
    exact .of_opcode accepted (by decide)
  | sent payload file' accepted direction read action =>
    cases action.symm.trans ha
    exact .of_opcode accepted (by simp [Packet.opcode])
  | failed file' e direction read action => cases action.symm.trans ha

theorem Opening.opened (hP : Storage.Reliable P) {s : Step σ η} (h : Opening t file store s)
    (hf : P file store) : ∃ packet, s.action = .opened packet := by
  cases h with
  | offered _ action | awaited _ _ action | sent _ _ _ _ _ action => exact ⟨_, action⟩
  | failed file' e direction read =>
    obtain ⟨store', hread⟩ := read
    obtain ⟨payload, _, _, hgot, -⟩ := hP.read t.blockSize hf
    cases hread.symm.trans hgot

end Transfer

/-- A reader that runs, with something that holds of its last packet, or one that is over. -/
inductive Transfer.Reads (size : Nat) (R : Bytes → Bool → Prop) (t : Transfer η) : Prop
  | running (file : η) (phase : t.phase = .transferring file) (direction : t.direction = .read)
      (blockSize : t.blockSize = size) (last : R t.lastPacket t.lastBlockSent)
  | closed (phase : t.phase.file? = none)

/-- A packet that is a block has the usual size at most, and if it is short, it is the last. -/
def Fits (size : Nat) (packet : Bytes) (last : Bool) : Prop :=
  ∀ block payload, packet = bytes (.data block payload) →
    payload.length ≤ size ∧ (payload.length < size → last = true)

theorem Fits.of_length {size : Nat} (block : UInt16) {payload : Bytes} (h : payload.length ≤ size) :
    Fits size (bytes (.data block payload)) (decide (payload.length < size)) := by
  intro block' payload' hd
  cases Packet.bytes_data_injective hd
  exact ⟨h, decide_eq_true⟩

structure Step.Reads (size : Nat) (R : Bytes → Bool → Prop) (s : Step σ η) : Prop where
  transfer : s.transfer.Reads size R
  sent : ∀ block payload, s.action.packet = bytes (.data block payload) →
    s.transfer.lastPacket = bytes (.data block payload) ∧
      ∃ file, s.transfer.phase = .transferring file

namespace Step.Reads

variable {size : Nat} {R : Bytes → Bool → Prop} {s : Step σ η}

omit [Storage σ η] in
theorem quiet (h : s.transfer.Reads size R) (ha : s.action = .noReply) : s.Reads size R :=
  ⟨h, fun _ _ hd => by
    rw [ha] at hd
    exact absurd hd.symm (Packet.bytes_ne_nil _)⟩

theorem next (hP : Storage.Reliable P)
    (hR : ∀ packet block payload, R packet false → payload.length ≤ size →
      R (bytes (.data block payload)) (decide (payload.length < size)))
    (h : s.Reads size R) (hf : s.Good P) (e : Transfer.Event) : (s.next e).Reads size R := by
  cases h.transfer with
  | closed phase =>
    have hidle : s.next e = s.transfer.idle s.store := Transfer.react_over phase s.store e
    rw [hidle]
    exact quiet (.closed phase) rfl
  | running file phase direction blockSize last =>
    have hcourse : s.transfer.Course file s.store e (s.next e) :=
      Transfer.course_react phase s.store e
    cases hcourse with
    | unmoved action transfer =>
      refine quiet ?_ action
      rw [transfer]
      exact .running file phase direction blockSize last
    | resent event left action transfer =>
      constructor
      · rw [transfer]
        exact .running file phase direction blockSize last
      · rw [action, transfer]
        exact fun _ _ hd => ⟨hd, file, phase⟩
    | repeated _ _ _ hwrite | stored _ _ _ hwrite => cases direction.symm.trans hwrite
    | sent payload file' event hread more read action transfer =>
      obtain ⟨store', hread⟩ := read
      obtain ⟨got, _, _, hgot, hlength, -⟩ :=
        hP.read s.transfer.blockSize (hf file (by rw [phase]; rfl))
      cases hread.symm.trans hgot
      rw [blockSize] at hlength
      rw [more] at last
      constructor
      · rw [transfer]
        refine .running file' rfl direction blockSize ?_
        have hnew := hR _ (s.transfer.block + 1) payload last hlength
        rwa [← blockSize] at hnew
      · rw [action, transfer]
        exact fun _ _ hd => ⟨hd, file', rfl⟩
    | closed packet action ended final =>
      refine ⟨.closed ended, fun block payload hd => ?_⟩
      rw [action] at hd
      exact absurd hd (final block payload)

theorem run (hP : Storage.Reliable P)
    (hR : ∀ packet block payload, R packet false → payload.length ≤ size →
      R (bytes (.data block payload)) (decide (payload.length < size)))
    (h : s.Reads size R) (hf : s.Good P) (events : List Transfer.Event) :
    (s.run events).Reads size R := by
  induction events generalizing s with
  | nil => exact h
  | cons e events ih => exact ih (h.next hP hR hf e) (hP.good_react hf e)

omit [Storage σ η] in
theorem holds (h : s.Reads size R) {block : UInt16} {payload : Bytes}
    (hd : s.action.packet = bytes (.data block payload)) :
    R (bytes (.data block payload)) s.transfer.lastBlockSent := by
  obtain ⟨hlast, file, hp⟩ := h.sent block payload hd
  cases h.transfer with
  | running _ _ _ _ last => exact hlast ▸ last
  | closed phase => simp [hp, Phase.file?] at phase

theorem ended (hP : Storage.Reliable P) (h : s.Reads size (Fits size)) (hf : s.Good P)
    {block : UInt16} {payload : Bytes} (hd : s.action.packet = bytes (.data block payload))
    (hshort : payload.length < size) (more : List Transfer.Event) {block' : UInt16}
    {payload' : Bytes} (hd' : (s.run more).action.packet = bytes (.data block' payload')) :
    bytes (.data block' payload') = bytes (.data block payload) := by
  obtain ⟨hlast, file, hp⟩ := h.sent block payload hd
  have hspent : s.transfer.Reads size fun packet last =>
      packet = bytes (.data block payload) ∧ last = true := by
    cases h.transfer with
    | running file hp direction blockSize last =>
      exact .running file hp direction blockSize ⟨hlast, (last block payload hlast).2 hshort⟩
    | closed phase => exact .closed phase
  have hrun := Step.Reads.run hP (fun _ _ _ hno => nomatch hno.2) ⟨hspent, h.sent⟩ hf more
  exact (hrun.holds hd').1

end Step.Reads

theorem Transfer.Opening.reads (hP : Storage.Reliable P) {s : Step σ η}
    (h : Opening t file store s) (ha : s.action = .opened packet) (hd : t.direction = .read)
    (hf : P file store) : s.Reads t.blockSize (Fits t.blockSize) := by
  cases h with
  | offered accepted action transfer =>
    have hno := ne_data_of_opcode (p := .optionAck (t.announceSize file store).fields) (by
      simp [Packet.opcode])
    constructor
    · rw [transfer]
      exact .running file rfl hd rfl fun block payload h => absurd h (hno block payload)
    · rw [action]
      exact fun block payload h => absurd h (hno block payload)
  | awaited accepted direction => cases hd.symm.trans direction
  | sent payload file' accepted direction read action transfer =>
    obtain ⟨store', hread⟩ := read
    obtain ⟨got, _, _, hgot, hlength, -⟩ := hP.read t.blockSize hf
    cases hread.symm.trans hgot
    constructor
    · rw [transfer]
      exact .running file' rfl hd rfl (.of_length _ hlength)
    · rw [action, transfer]
      exact fun _ _ h => ⟨h, file', rfl⟩
  | failed file' e direction read action => cases action.symm.trans ha

/-- What a writer makes of the block that it expects: it goes on after a full one, completes with a
shorter one and gives up on a longer one. -/
structure Step.Takes (size : Nat) (s : Step σ η) : Prop where
  full (payload : Bytes) : payload.length = size →
    (s.next (.data s.transfer.expected payload)).action =
      .reply (bytes (.ack s.transfer.expected)) ∧
    (s.next (.data s.transfer.expected payload)).transfer.terminal = false
  short (payload : Bytes) : payload.length < size →
    (s.next (.data s.transfer.expected payload)).action =
      .closed (bytes (.ack s.transfer.expected)) ∧
    (s.next (.data s.transfer.expected payload)).transfer.phase = .completed
  long (payload : Bytes) : size < payload.length →
    (s.next (.data s.transfer.expected payload)).action =
      .closed (bytes (.error .illegalOperation (ascii "illegal operation"))) ∧
    (s.next (.data s.transfer.expected payload)).transfer.phase = .aborted

theorem Step.takes (hP : Storage.Reliable P) {s : Step σ η}
    (hp : s.transfer.phase = .transferring file) (hd : s.transfer.direction = .write)
    (hf : P file s.store) : s.Takes s.transfer.blockSize where
  full payload hl := by
    obtain ⟨file', store', hw, -⟩ := hP.write payload hf
    rw [Step.next, Transfer.react, Transfer.onData_ok hp hd (Nat.le_of_eq hl) hw,
      Transfer.acknowledge_full (t := s.transfer.stored file' payload.length)
        (Nat.le_of_eq hl.symm)]
    exact ⟨rfl, rfl⟩
  short payload hl := by
    obtain ⟨file', store', hw, hf'⟩ := hP.write payload hf
    obtain ⟨file'', store'', hc, -⟩ := hP.commit hf'
    obtain ⟨log, hdone⟩ :=
      Transfer.acknowledge_ok (t := s.transfer.stored file' payload.length) hl hc
    rw [Step.next, Transfer.react, Transfer.onData_ok hp hd (Nat.le_of_lt hl) hw, hdone]
    exact ⟨rfl, rfl⟩
  long payload hl := by
    have hphase : s.transfer.phase.file? = some file := by rw [hp]; rfl
    rw [Step.next, Transfer.react, Transfer.onData_large hp hd hl]
    simp only [Transfer.illegal, hphase]
    exact ⟨rfl, rfl⟩

theorem Step.running_run {s : Step σ η}
    (h : s.transfer.Running ∨ s.transfer.phase.file? = none) (events : List Transfer.Event) :
    (s.run events).transfer.Running ∨ (s.run events).transfer.phase.file? = none := by
  induction events generalizing s with
  | nil => exact h
  | cons e events ih =>
    refine ih ?_
    rcases h with hrun | hover
    · have houtcome : Transfer.Outcome s.transfer (s.next e) := hrun.react e
      cases houtcome with
      | unmoved action transfer => exact .inl (transfer ▸ hrun)
      | replied packet action sent running => exact .inl running
      | closed packet action ended => exact .inr ended
    · right
      have hidle : s.next e = s.transfer.idle s.store := Transfer.react_over hover s.store e
      rw [hidle]
      exact hover

end Tftp
