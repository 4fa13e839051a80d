import Mathlib.Data.List.Induction
import Mathlib.Tactic.Common
import Tftp.Proofs.Chunks
import Tftp.Proofs.Packet.Opcode
import Tftp.Proofs.Storage.Reliable
import Tftp.Proofs.Transfer.Frame
import Tftp.Proofs.Transfer.Reaction

namespace Tftp

open Bytes (chunk chunks chunkCount)

namespace Download

inductive Arrival
  | ack (block : UInt16)
  | timeout
  deriving DecidableEq

def Arrival.event : Arrival → Transfer.Event
  | .ack block => .ack block
  | .timeout => .timeout

variable {σ η : Type} [Storage σ η]

def begin (peer : Endpoint) (r : Request) (limits : Limits) (file : η) (store : σ) : Step σ η :=
  (Transfer.new peer .read r.filename file (negotiate r.options).1 limits).start store

def after (s : Step σ η) (as : List Arrival) : Step σ η := s.run (as.map Arrival.event)

def dataOf (s : Step σ η) : List Bytes :=
  if Packet.opcodeOf s.action.packet = 3 then [s.action.packet] else []

/-- The DATA packet that answers an arrival. What a timeout sends was sent before. -/
def answer (s : Step σ η) : Arrival → List Bytes
  | .ack block => dataOf (s.next (.ack block))
  | .timeout => []

def answers (s : Step σ η) : List Arrival → List Bytes
  | [] => []
  | a :: as => answer s a ++ answers (s.next a.event) as

def sent (first : Step σ η) (as : List Arrival) : List Bytes := dataOf first ++ answers first as

def packet (size : Nat) (content : Bytes) (i : Nat) : Bytes :=
  Packet.bytes (.data (UInt16.ofNat (i + 1)) (chunk size content i))

theorem after_concat (s : Step σ η) (as : List Arrival) (a : Arrival) :
    after s (as ++ [a]) = (after s as).next a.event := by
  simp [after, Step.run_concat]

theorem answers_concat (s : Step σ η) (as : List Arrival) (a : Arrival) :
    answers s (as ++ [a]) = answers s as ++ answer (after s as) a := by
  induction as generalizing s with
  | nil => simp [answers, after]
  | cons b as ih => simpa [answers, after, Step.run_cons] using ih _

theorem sent_concat (s : Step σ η) (as : List Arrival) (a : Arrival) :
    sent s (as ++ [a]) = sent s as ++ answer (after s as) a := by
  simp only [sent, answers_concat, List.append_assoc]

inductive Standing (P : Bytes → η → σ → Prop) (size : Nat) (content : Bytes) (m : Nat)
    (t : Transfer η) (store : σ) : Prop
  | running (file : η) (phase : t.phase = .transferring file)
      (rest : P (content.drop (m * size)) file store)
      (last : t.lastBlockSent = decide (m = chunkCount size content))
  | completed (phase : t.phase = .completed) (all : m = chunkCount size content)
  | aborted (phase : t.phase = .aborted)

structure State (P : Bytes → η → σ → Prop) (size : Nat) (content : Bytes) (limit fires m : Nat)
    (s : Step σ η) : Prop where
  standing : Standing P size content m s.transfer s.store
  direction : s.transfer.direction = .read
  blockSize : s.transfer.blockSize = size
  maxRetries : s.transfer.maxRetries = limit
  bound : m ≤ chunkCount size content
  block : s.transfer.block = UInt16.ofNat m
  transferred : s.transfer.transferred = (chunks size content m).flatten.length
  retries : s.transfer.retries ≤ fires
  tired : s.transfer.phase = .aborted → limit < fires

def Awaited (s : Step σ η) (m : Nat) (a : Arrival) : Prop :=
  ¬s.transfer.terminal ∧ a = .ack (UInt16.ofNat m)

instance (s : Step σ η) (m : Nat) (a : Arrival) : Decidable (Awaited s m a) :=
  inferInstanceAs (Decidable (_ ∧ _))

variable {P : Bytes → η → σ → Prop} {size : Nat} {content : Bytes} {limit fires m : Nat}
  {s : Step σ η}

section

omit [Storage σ η]

theorem dataOf_data {block : UInt16} {payload : Bytes}
    (h : s.action.packet = Packet.bytes (.data block payload)) :
    dataOf s = [Packet.bytes (.data block payload)] := by
  simp [dataOf, h, Packet.opcode]

theorem dataOf_empty (h : s.action.packet = []) : dataOf s = [] := by
  rw [dataOf, h]
  rfl

theorem drop_succ : (content.drop (m * size)).drop size = content.drop ((m + 1) * size) := by
  rw [List.drop_drop, Nat.succ_mul]

theorem State.mono {fires' : Nat} (h : State P size content limit fires m s)
    (hf : fires ≤ fires') : State P size content limit fires' m s :=
  { h with
    retries := Nat.le_trans h.retries hf
    tired := fun hp => Nat.lt_of_lt_of_le (h.tired hp) hf }

theorem terminal_eq_true (h : s.transfer.phase.file? = none) : s.transfer.terminal = true := by
  rw [Transfer.terminal, Phase.terminal, h]
  rfl

theorem terminal_eq_false {file : η} (h : s.transfer.phase = .transferring file) :
    s.transfer.terminal = false := by
  rw [Transfer.terminal, Phase.terminal, h]
  rfl

end

theorem State.over (h : State P size content limit fires m s)
    (ht : s.transfer.phase.file? = none) (a : Arrival) :
    State P size content limit fires m (s.next a.event) ∧ answer s a = [] ∧
      (s.next a.event).transfer = s.transfer := by
  have hn : ∀ e, s.next e = s.transfer.idle s.store := fun e => Transfer.react_over ht s.store e
  refine ⟨?_, ?_, by rw [hn]; rfl⟩
  · rw [hn]
    exact { h with }
  · cases a with
    | ack block => exact dataOf_empty (by rw [hn]; rfl)
    | timeout => rfl

section

variable {file : η} (h : State P size content limit fires m s)
  (phase : s.transfer.phase = .transferring file)
  (last : s.transfer.lastBlockSent = decide (m = chunkCount size content))

include h phase last

theorem State.timeout (rest : P (content.drop (m * size)) file s.store) :
    State P size content limit (fires + 1) m (s.next .timeout) ∧
      (s.next .timeout).transfer.phase ≠ .completed := by
  have hr := h.retries
  rcases Nat.lt_or_ge s.transfer.retries s.transfer.maxRetries with hlt | hge
  · obtain ⟨log, hs⟩ := Transfer.onTimeout_resend phase hlt s.store
    rw [Step.next, Transfer.react, hs]
    exact ⟨{ h with
      standing := .running file phase rest last
      retries := Nat.succ_le_succ hr
      tired := fun hp => by simp [phase] at hp }, by simp [phase]⟩
  · obtain ⟨log, hs⟩ := Transfer.onTimeout_abort phase hge s.store
    rw [Step.next, Transfer.react, hs]
    exact ⟨{ h with
      standing := .aborted rfl
      retries := Nat.le_succ_of_le hr
      tired := fun _ => by have := h.maxRetries; omega }, fun hp => by cases hp⟩

theorem State.stale (rest : P (content.drop (m * size)) file s.store) {block : UInt16}
    (hb : block ≠ UInt16.ofNat m) :
    State P size content limit fires m (s.next (.ack block)) ∧
      dataOf (s.next (.ack block)) = [] ∧
        (s.next (.ack block)).transfer.phase ≠ .completed := by
  rw [← h.block] at hb
  obtain ⟨log, hs⟩ := Transfer.onAck_stale phase h.direction hb s.store
  rw [Step.next, Transfer.react, hs]
  exact ⟨{ h with
    standing := .running file phase rest last
    tired := fun hp => by simp [phase] at hp }, dataOf_empty rfl, by simp [phase]⟩

theorem State.finish (all : m = chunkCount size content) :
    State P size content limit fires m (s.next (.ack (UInt16.ofNat m))) ∧
      dataOf (s.next (.ack (UInt16.ofNat m))) = [] ∧
        (s.next (.ack (UInt16.ofNat m))).transfer.phase = .completed := by
  obtain ⟨log, hs⟩ := Transfer.onAck_last phase h.direction (by simp [last, all]) s.store
  rw [← h.block, Step.next, Transfer.react, hs]
  exact ⟨{ h with
    standing := .completed rfl all
    tired := fun hp => by cases hp }, dataOf_empty rfl, rfl⟩

theorem State.more (hP : Storage.Readable P) (hsize : 0 < size)
    (rest : P (content.drop (m * size)) file s.store) (more : m < chunkCount size content) :
    State P size content limit fires (m + 1) (s.next (.ack (UInt16.ofNat m))) ∧
      dataOf (s.next (.ack (UInt16.ofNat m))) = [packet size content m] ∧
        (s.next (.ack (UInt16.ofNat m))).transfer.phase ≠ .completed := by
  have hnot : s.transfer.lastBlockSent = false := by simp [last, Nat.ne_of_lt more]
  have hblock : s.transfer.block + 1 = UInt16.ofNat (m + 1) := by
    rw [h.block]
    simp
  obtain ⟨file', store', hread, rest'⟩ := hP.read s.transfer.blockSize rest
  rw [h.blockSize, drop_succ] at rest'
  rw [← h.block, Step.next, Transfer.react, Transfer.onAck_next phase h.direction hnot,
    Transfer.sendNextBlock_ok (t := { s.transfer with retries := 0 }) hread]
  refine ⟨{
    standing := .running file' rfl rest' ?_
    direction := h.direction
    blockSize := h.blockSize
    maxRetries := h.maxRetries
    bound := more
    block := hblock
    transferred := ?_
    retries := Nat.zero_le _
    tired := fun hp => by cases hp }, ?_, fun hp => by cases hp⟩
  · rw [h.blockSize]
    exact decide_eq_decide.2 (Bytes.length_chunk_lt_iff hsize more)
  · rw [Bytes.chunks_succ, List.flatten_append, List.length_append, ← h.transferred, h.blockSize]
    simp [chunk]
  · rw [packet, chunk, ← hblock, h.blockSize]
    exact dataOf_data rfl

end

theorem State.next (hP : Storage.Readable P) (hsize : 0 < size)
    (h : State P size content limit fires m s) (a : Arrival) :
    State P size content limit (fires + [a].count .timeout)
        (if Awaited s m a ∧ m < chunkCount size content then m + 1 else m) (s.next a.event) ∧
      answer s a =
        (if Awaited s m a ∧ m < chunkCount size content then [packet size content m] else []) ∧
      ((s.next a.event).transfer.phase = .completed ↔ s.transfer.phase = .completed ∨
        Awaited s m a ∧ m = chunkCount size content) := by
  cases hst : h.standing with
  | running file phase rest last =>
    have hrun := terminal_eq_false phase
    have hnot : s.transfer.phase ≠ .completed := by simp [phase]
    cases a with
    | timeout =>
      obtain ⟨hs, hc⟩ := h.timeout phase last rest
      simpa [Awaited, Arrival.event, answer, hnot] using ⟨hs, hc⟩
    | ack block =>
      by_cases hb : block = UInt16.ofNat m
      · subst hb
        rcases Nat.lt_or_eq_of_le h.bound with more | all
        · obtain ⟨hs, hd, hc⟩ := h.more phase last hP hsize rest more
          simpa [Awaited, Arrival.event, answer, hnot, hrun, more, Nat.ne_of_lt more]
            using ⟨hs, hd, hc⟩
        · subst all
          obtain ⟨hs, hd, hc⟩ := h.finish phase last rfl
          simpa [Awaited, Arrival.event, answer, hnot, hrun] using ⟨hs, hd, hc⟩
      · obtain ⟨hs, hd, hc⟩ := h.stale phase last rest hb
        simpa [Awaited, Arrival.event, answer, hnot, hb] using ⟨hs, hd, hc⟩
  | completed phase all =>
    have ht : s.transfer.phase.file? = none := by rw [phase]; rfl
    obtain ⟨hs, ha, hp⟩ := h.over ht a
    simpa [Awaited, terminal_eq_true ht, hp] using ⟨hs.mono (Nat.le_add_right _ _), ha⟩
  | aborted phase =>
    have ht : s.transfer.phase.file? = none := by rw [phase]; rfl
    obtain ⟨hs, ha, hp⟩ := h.over ht a
    simpa [Awaited, terminal_eq_true ht, hp] using ⟨hs.mono (Nat.le_add_right _ _), ha⟩

/-- The last chunk was acknowledged at some moment before which the transfer had not given up. -/
def Acknowledged (first : Step σ η) (content : Bytes) (as : List Arrival) : Prop :=
  ∃ before, before ++ [.ack (UInt16.ofNat (chunkCount first.transfer.blockSize content))] <+: as ∧
    (sent first before).length = chunkCount first.transfer.blockSize content ∧
      (after first before).transfer.phase ≠ .aborted

theorem acknowledged_concat {first : Step σ η} {as : List Arrival} {a : Arrival} :
    Acknowledged first content (as ++ [a]) ↔ Acknowledged first content as ∨
      a = .ack (UInt16.ofNat (chunkCount first.transfer.blockSize content)) ∧
        (sent first as).length = chunkCount first.transfer.blockSize content ∧
          (after first as).transfer.phase ≠ .aborted := by
  constructor
  · rintro ⟨before, hp, hn, ha⟩
    rcases List.prefix_concat_iff.1 hp with heq | hp
    · obtain ⟨rfl, hi⟩ := List.append_inj' heq rfl
      exact .inr ⟨by simpa using hi.symm, hn, ha⟩
    · exact .inl ⟨before, hp, hn, ha⟩
  · rintro (⟨before, hp, hn, ha⟩ | ⟨rfl, hn, ha⟩)
    · exact ⟨before, hp.trans (List.prefix_append _ _), hn, ha⟩
    · exact ⟨as, List.prefix_refl _, hn, ha⟩

omit [Storage σ η] in
theorem State.running_iff (h : State P size content limit fires m s)
    (hc : s.transfer.phase ≠ .completed) :
    ¬s.transfer.terminal ↔ s.transfer.phase ≠ .aborted := by
  cases h.standing with
  | running file phase => simp [terminal_eq_false phase, phase]
  | completed phase => exact absurd phase hc
  | aborted phase => simp [Transfer.terminal, Phase.terminal, Phase.file?, phase]

omit [Storage σ η] in
theorem State.all (h : State P size content limit fires m s)
    (hc : s.transfer.phase = .completed) : m = chunkCount size content := by
  cases h.standing with
  | running file phase => simp [phase] at hc
  | completed phase all => exact all
  | aborted phase => simp [phase] at hc

theorem state_after (hP : Storage.Readable P) {first : Step σ η} {content : Bytes} {limit m : Nat}
    (hsize : 0 < first.transfer.blockSize)
    (hfirst : State P first.transfer.blockSize content limit 0 m first)
    (hdata : dataOf first = (List.range m).map (packet first.transfer.blockSize content))
    (hstart : first.transfer.phase ≠ .completed) (as : List Arrival) :
    State P first.transfer.blockSize content limit (as.count .timeout) (sent first as).length
        (after first as) ∧
      sent first as = (List.range (sent first as).length).map
        (packet first.transfer.blockSize content) ∧
      ((after first as).transfer.phase = .completed ↔ Acknowledged first content as) := by
  induction as using List.reverseRecOn with
  | nil =>
    have hs : sent first [] = (List.range m).map (packet first.transfer.blockSize content) := by
      simpa [sent, answers] using hdata
    have hm : (sent first []).length = m := by simp [hs]
    have hno : ¬Acknowledged first content [] := by
      rintro ⟨before, hp, -⟩
      simp at hp
    rw [hm]
    exact ⟨hfirst, hs, iff_of_false hstart hno⟩
  | append_singleton as a ih =>
    obtain ⟨h, hsent, hdone⟩ := ih
    obtain ⟨hs, ha, hc⟩ := h.next hP hsize a
    have hlen : (sent first (as ++ [a])).length =
        if Awaited (after first as) (sent first as).length a ∧
          (sent first as).length < chunkCount first.transfer.blockSize content
        then (sent first as).length + 1 else (sent first as).length := by
      rw [sent_concat, ha]
      split <;> simp
    refine ⟨?_, ?_, ?_⟩
    · rw [hlen, after_concat, List.count_append]
      exact hs
    · rw [hlen, sent_concat, ha]
      split
      · rw [List.range_succ, List.map_append, ← hsent]
        rfl
      · rw [List.append_nil, ← hsent]
    · rw [after_concat, hc, acknowledged_concat, hdone]
      by_cases hack : Acknowledged first content as
      · simp [hack]
      · have hrun := h.running_iff (mt hdone.1 hack)
        constructor
        · rintro (hk | ⟨⟨ht, rfl⟩, hm⟩)
          · exact .inl hk
          · exact .inr ⟨by rw [hm], hm, hrun.1 ht⟩
        · rintro (hk | ⟨rfl, hm, hp⟩)
          · exact .inl hk
          · exact .inr ⟨⟨hrun.2 hp, by rw [hm]⟩, hm⟩

section

variable {file : η} {store : σ} (peer : Endpoint) (r : Request) (limits : Limits)

theorem begin_blockSize (file : η) (store : σ) :
    0 < (begin peer r limits file store).transfer.blockSize := by
  have hmin : 0 < minBlockSize := by decide
  have hb := (Transfer.blockSize_start peer .read r.filename file r.options limits store).1
  exact Nat.lt_of_lt_of_le hmin hb

theorem begin_state (hP : Storage.Readable P) {content : Bytes} (hfile : P content file store) :
    ∃ m, State P (begin peer r limits file store).transfer.blockSize content limits.retries 0 m
        (begin peer r limits file store) ∧
      dataOf (begin peer r limits file store) =
        (List.range m).map (packet (begin peer r limits file store).transfer.blockSize content) ∧
      (begin peer r limits file store).transfer.phase ≠ .completed := by
  let t := Transfer.new peer .read r.filename file (negotiate r.options).1 limits
  have hp : t.phase = .negotiating file := rfl
  have hb : begin peer r limits file store = t.start store := rfl
  have hmin : 0 < minBlockSize := by decide
  have hsize : 0 < t.blockSize :=
    Nat.lt_of_lt_of_le hmin (Transfer.blockSize_new peer .read r.filename file r.options limits).1
  rw [hb]
  by_cases ha : t.accepted.choices = []
  · obtain ⟨file', store', hread, rest'⟩ := hP.read t.blockSize hfile
    rw [Transfer.start_read hp rfl ha hread]
    have hchunk : chunk t.blockSize content 0 = content.take t.blockSize := by simp [chunk]
    have hmore : 0 < chunkCount t.blockSize content := Nat.succ_pos _
    refine ⟨1, {
      standing := .running file' rfl ?_ ?_
      direction := rfl
      blockSize := rfl
      maxRetries := rfl
      bound := hmore
      block := rfl
      transferred := ?_
      retries := Nat.le_refl 0
      tired := fun h => by cases h }, ?_, fun hp => by cases hp⟩
    · simpa [Transfer.begun] using rest'
    · have hshort := Bytes.length_chunk_lt_iff hsize hmore
      rw [hchunk] at hshort
      exact decide_eq_decide.2 hshort
    · simp [chunk, chunks, t, Transfer.new, Transfer.begun]
    · change _ = [packet t.blockSize content 0]
      rw [packet, hchunk]
      exact dataOf_data rfl
  · obtain ⟨log, hs⟩ := Transfer.start_options hp ha store
    rw [hs]
    refine ⟨0, {
      standing := .running file rfl ?_ ?_
      direction := rfl
      blockSize := rfl
      maxRetries := rfl
      bound := Nat.zero_le _
      block := rfl
      transferred := rfl
      retries := Nat.le_refl 0
      tired := fun h => by cases h }, ?_, fun hp => by cases hp⟩
    · simpa using hfile
    · exact (decide_eq_false (Nat.succ_ne_zero _).symm).symm
    · simp [dataOf, Action.packet, Packet.opcode]

end

/-- What holds of a download after any acknowledgements and timeouts. `sent` counts the chunks that
were sent so far. -/
structure Exact (first : Step σ η) (limits : Limits) (content : Bytes) (as : List Arrival) :
    Prop where
  packets : sent first as =
    (List.range (sent first as).length).map (packet first.transfer.blockSize content)
  bound : (sent first as).length ≤ chunkCount first.transfer.blockSize content
  /-- Another chunk is sent when the latest one is acknowledged, and at no other time. -/
  next : ∀ a, sent first (as ++ [a]) = sent first as ++
    if Awaited (after first as) (sent first as).length a ∧
      (sent first as).length < chunkCount first.transfer.blockSize content
    then [packet first.transfer.blockSize content (sent first as).length] else []
  block : (after first as).transfer.block = UInt16.ofNat (sent first as).length
  transferred : (after first as).transfer.transferred =
    (chunks first.transfer.blockSize content (sent first as).length).flatten.length
  completed : (after first as).transfer.phase = .completed ↔ Acknowledged first content as
  whole : (after first as).transfer.phase = .completed →
    (sent first as).length = chunkCount first.transfer.blockSize content ∧
      (chunks first.transfer.blockSize content (sent first as).length).flatten = content ∧
        (after first as).transfer.transferred = content.length
  aborted : (after first as).transfer.phase = .aborted → limits.retries < as.count .timeout

/-- A download from a file that does not fail sends its content and nothing else, whatever is
acknowledged and when. -/
theorem download_exact {file : η} {store : σ} (peer : Endpoint) (r : Request) (limits : Limits)
    (hP : Storage.Readable P) {content : Bytes} (hfile : P content file store)
    (as : List Arrival) : Exact (begin peer r limits file store) limits content as := by
  have hsize := begin_blockSize peer r limits file store
  obtain ⟨m, hfirst, hdata, hstart⟩ := begin_state peer r limits hP hfile
  obtain ⟨h, hsent, hdone⟩ := state_after hP hsize hfirst hdata hstart as
  exact {
    packets := hsent
    bound := h.bound
    next := fun a => by rw [sent_concat, (h.next hP hsize a).2.1]
    block := h.block
    transferred := h.transferred
    completed := hdone
    whole := fun hc => by
      have hflat : (chunks _ content (chunkCount _ content)).flatten = content :=
        Bytes.flatten_all_chunks hsize
      rw [h.transferred, h.all hc]
      exact ⟨rfl, hflat, congrArg List.length hflat⟩
    aborted := h.tired }

theorem download_exact_ten_bytes :
    let r : Request := ⟨ascii "f", octetMode, [⟨ascii "blksize", ascii "8"⟩]⟩
    let content : Bytes := [0, 1, 2, 3, 4, 5, 6, 7, 8, 9]
    let file : Memory.Handle := ⟨ascii "f", content, 10, []⟩
    let first := begin ⟨2130706433, 4000⟩ r {} file ([] : Memory.Files)
    let as := [.ack 0, .ack 0, .timeout, .ack 7, .ack 1, .ack 2]
    Exact first {} content as ∧ (sent first as).length = 2 ∧
      (after first as).transfer.terminal := by
  intro r content file first as
  have h : Exact first {} content as :=
    download_exact _ r {} Memory.readable ⟨rfl, rfl⟩ as
  exact ⟨h, by decide +kernel, by decide +kernel⟩

end Download
end Tftp
