import Mathlib.Data.List.Induction
import Mathlib.Tactic.Common
import Tftp.Proofs.Chunks
import Tftp.Proofs.Negotiation
import Tftp.Proofs.Packet.Opcode
import Tftp.Proofs.Storage.Reliable
import Tftp.Proofs.Transfer.Frame
import Tftp.Proofs.Transfer.Image
import Tftp.Proofs.Transfer.Reaction

/-!
An upload over a file that never fails. Chunks arrive late, twice, in any order or not at all, and
their block numbers wrap. What is written is nevertheless the content from its start on, each chunk
once; it is committed when it is complete, and what is acknowledged is stored.
-/

namespace Tftp

open Bytes (chunk chunks chunkCount)

namespace Upload

/-- What the server sees of a peer that uploads a content: a chunk of it, by its true index, or
nothing until the timer fires. -/
inductive Arrival
  | chunk (index : Nat)
  | timeout
  deriving DecidableEq

/-- A chunk comes with its number, counted from 1 and cut to 16 bits. -/
def Arrival.event (size : Nat) (content : Bytes) : Arrival → Transfer.Event
  | .chunk i => .data (UInt16.ofNat (i + 1)) (content.chunk size i)
  | .timeout => .timeout

variable {σ η : Type} [Storage σ η]

def begin (peer : Endpoint) (r : Request) (limits : Limits) (file : η) (store : σ) :
    Step (Recorded σ) (Numbered η) :=
  (Transfer.new peer .write r.filename ⟨file, 0⟩ (negotiate r.options).1 limits).start
    { store := store }

def after (s : Step (Recorded σ) (Numbered η)) (content : Bytes) (as : List Arrival) :
    Step (Recorded σ) (Numbered η) :=
  s.run (as.map (Arrival.event s.transfer.blockSize content))

/-- How many chunks were accepted, which is the index of the chunk that is wanted next. -/
def accepted (s : Step (Recorded σ) (Numbered η)) : Nat := (s.store.blocks 0).length

/-- Every chunk that arrives belongs to the content and is less than 65536 away from the one that
is wanted at that moment. -/
def InWindow (s : Step (Recorded σ) (Numbered η)) (content : Bytes) (as : List Arrival) : Prop :=
  ∀ before i, before ++ [.chunk i] <+: as →
    i < content.chunkCount s.transfer.blockSize ∧
      i < accepted (after s content before) + 65536 ∧ accepted (after s content before) < i + 65536

def writes (size : Nat) (content : Bytes) (m : Nat) : List Call :=
  (chunks size content m).map fun c => .wrote 0 c true

/-- Where a transfer stands that has stored the first `m` chunks. Its last packet matters only as
long as it runs: later it is not sent again. -/
inductive Standing (P : η → σ → Prop) (size : Nat) (content greeting : Bytes) (m : Nat)
    (t : Transfer (Numbered η)) (r : Recorded σ) : Prop
  | running (file : η) (phase : t.phase = .transferring ⟨file, 0⟩) (good : P file r.store)
      (more : m < chunkCount size content) (calls : r.calls = writes size content m)
      (last : t.lastPacket = if m = 0 then greeting else Packet.bytes (.ack (UInt16.ofNat m)))
  | completed (phase : t.phase = .completed) (all : m = chunkCount size content)
      (calls : r.calls = writes size content m ++ [.committed 0 true, .released 0])
  | aborted (phase : t.phase = .aborted) (more : m < chunkCount size content)
      (calls : r.calls = writes size content m ++ [.released 0])

/-- What holds after any number of arrivals, `m` chunks of which were accepted and `fires` of which
were timeouts. -/
structure State (P : η → σ → Prop) (size : Nat) (content greeting : Bytes) (limit fires m : Nat)
    (s : Step (Recorded σ) (Numbered η)) : Prop where
  standing : Standing P size content greeting m s.transfer s.store
  direction : s.transfer.direction = .write
  blockSize : s.transfer.blockSize = size
  maxRetries : s.transfer.maxRetries = limit
  block : s.transfer.block = UInt16.ofNat m
  transferred : s.transfer.transferred = (chunks size content m).flatten.length
  retries : s.transfer.retries ≤ fires
  tired : s.transfer.phase = .aborted → limit < fires
  acks : ∀ k, s.action.packet = Packet.bytes (.ack k) → k = UInt16.ofNat m

variable {P : η → σ → Prop} {size : Nat} {content greeting : Bytes} {limit fires m : Nat}
  {s : Step (Recorded σ) (Numbered η)}

theorem writes_succ : writes size content (m + 1) =
    writes size content m ++ [.wrote 0 (chunk size content m) true] := by
  simp [writes, Bytes.chunks_succ]

theorem ack_of_last (hg : ∀ k, greeting = Packet.bytes (.ack k) → k = 0) {k : UInt16}
    (h : (if m = 0 then greeting else Packet.bytes (.ack (UInt16.ofNat m))) =
      Packet.bytes (.ack k)) : k = UInt16.ofNat m := by
  split at h
  · rename_i hm
    rw [hg k h, hm]
    rfl
  · exact (Packet.bytes_ack_injective h).symm

theorem not_ack_of_empty {k : UInt16} : ([] : Bytes) ≠ Packet.bytes (.ack k) :=
  fun h => Packet.bytes_ne_nil _ h.symm

theorem not_ack_of_error {code : ErrorCode} {message : Bytes} {k : UInt16} :
    Packet.bytes (.error code message) ≠ Packet.bytes (.ack k) := by
  intro h
  simpa [Packet.opcode] using Packet.opcode_of_bytes h

theorem number_eq_iff {i : Nat} (hlo : i < m + 65536) (hhi : m < i + 65536) :
    UInt16.ofNat (i + 1) = UInt16.ofNat m + 1 ↔ i = m := by
  rw [← UInt16.toNat_inj]
  have h1 : (1 : UInt16).toNat = 1 := rfl
  simp only [UInt16.toNat_ofNat', UInt16.toNat_add, h1]
  omega

section

omit [Storage σ η]

theorem State.mono {fires' : Nat} (h : State P size content greeting limit fires m s)
    (hf : fires ≤ fires') : State P size content greeting limit fires' m s :=
  { h with
    retries := Nat.le_trans h.retries hf
    tired := fun hp => Nat.lt_of_lt_of_le (h.tired hp) hf }

end

theorem State.over (h : State P size content greeting limit fires m s)
    (ht : s.transfer.phase.file? = none) (e : Transfer.Event) :
    State P size content greeting limit fires m (s.next e) := by
  rw [Step.next, Transfer.react_over ht]
  exact { h with acks := fun k hk => absurd hk not_ack_of_empty }

section

variable {file : η} (h : State P size content greeting limit fires m s)
  (phase : s.transfer.phase = .transferring ⟨file, 0⟩) (good : P file s.store.store)
  (more : m < chunkCount size content) (calls : s.store.calls = writes size content m)

include h phase more calls

theorem State.timeout (good : P file s.store.store)
    (last : s.transfer.lastPacket =
      if m = 0 then greeting else Packet.bytes (.ack (UInt16.ofNat m)))
    (hg : ∀ k, greeting = Packet.bytes (.ack k) → k = 0) :
    State P size content greeting limit (fires + 1) m (s.next .timeout) := by
  have hr := h.retries
  rcases Nat.lt_or_ge s.transfer.retries s.transfer.maxRetries with hlt | hge
  · obtain ⟨log, hs⟩ := Transfer.onTimeout_resend phase hlt s.store
    rw [Step.next, Transfer.react, hs]
    exact { h with
      standing := .running file phase good more calls last
      retries := Nat.succ_le_succ hr
      tired := fun hp => by simp [phase] at hp
      acks := fun k hk => ack_of_last hg (last.symm.trans hk) }
  · obtain ⟨log, hs⟩ := Transfer.onTimeout_abort phase hge s.store
    rw [Step.next, Transfer.react, hs]
    exact { h with
      standing := .aborted rfl more (by simp [calls])
      retries := Nat.le_succ_of_le hr
      tired := fun _ => by have := h.maxRetries; omega
      acks := fun k hk => absurd hk not_ack_of_error }

theorem State.stale (good : P file s.store.store)
    (last : s.transfer.lastPacket =
      if m = 0 then greeting else Packet.bytes (.ack (UInt16.ofNat m)))
    (hg : ∀ k, greeting = Packet.bytes (.ack k) → k = 0) {block : UInt16}
    (hb : block ≠ UInt16.ofNat m + 1) (payload : Bytes) :
    State P size content greeting limit fires m (s.next (.data block payload)) := by
  rw [← h.block] at hb
  obtain ⟨log, hs⟩ := Transfer.onData_stale phase h.direction hb s.store payload
  rw [Step.next, Transfer.react, hs]
  exact { h with
    standing := .running file phase good more calls last
    tired := fun hp => by simp [phase] at hp
    acks := fun k hk => ack_of_last hg (last.symm.trans hk) }

theorem State.wanted (hP : Storage.Writable P) (hsize : 0 < size) (good : P file s.store.store) :
    State P size content greeting limit fires (m + 1)
      (s.next (.data (UInt16.ofNat m + 1) (chunk size content m))) := by
  have hb : UInt16.ofNat m + 1 = s.transfer.expected := by rw [Transfer.expected, h.block]
  have hlen : (chunk size content m).length ≤ s.transfer.blockSize := by
    rw [h.blockSize]
    exact Bytes.length_chunk_le m
  have hblock : s.transfer.expected = UInt16.ofNat (m + 1) := by
    rw [← hb]
    simp
  have htransferred : s.transfer.transferred + (chunk size content m).length =
      (chunks size content (m + 1)).flatten.length := by
    rw [h.transferred, Bytes.chunks_succ]
    simp
  have hack : ∀ {k}, Packet.bytes (.ack s.transfer.expected) = Packet.bytes (.ack k) →
      k = UInt16.ofNat (m + 1) := fun hk => by
    rw [← hblock, Packet.bytes_ack_injective hk]
  obtain ⟨file', store', hw, good'⟩ := hP.write (chunk size content m) good
  have hw := Recorded.write_ok (n := 0) hw
  rw [Step.next, Transfer.react, hb, Transfer.onData_ok phase h.direction hlen hw]
  by_cases hshort : (chunk size content m).length < size
  · have hall := (Bytes.length_chunk_lt_iff hsize more).1 hshort
    obtain ⟨file'', store'', hc⟩ := hP.commit good'
    have hc := Recorded.commit_ok (n := 0)
      (r := s.store.note store' (.wrote 0 (chunk size content m) true)) hc
    obtain ⟨log, hs⟩ := Transfer.acknowledge_ok
      (t := s.transfer.stored ⟨file', 0⟩ (chunk size content m).length)
      (by rw [Transfer.stored, h.blockSize]; exact hshort) hc
    rw [hs]
    exact {
      standing := .completed rfl hall (by simp [calls, writes_succ])
      direction := h.direction
      blockSize := h.blockSize
      maxRetries := h.maxRetries
      block := hblock
      transferred := htransferred
      retries := Nat.zero_le _
      tired := fun hp => by cases hp
      acks := fun k hk => hack hk }
  · have hmore : m + 1 < chunkCount size content := by
      have := mt (Bytes.length_chunk_lt_iff hsize more).2 hshort
      omega
    rw [Transfer.acknowledge_full (by rw [Transfer.stored, h.blockSize]; omega)]
    exact {
      standing := .running file' rfl good' hmore
        (by simp [calls, writes_succ])
        (by simp [Transfer.stored, hblock])
      direction := h.direction
      blockSize := h.blockSize
      maxRetries := h.maxRetries
      block := hblock
      transferred := htransferred
      retries := Nat.zero_le _
      tired := fun hp => by cases hp
      acks := fun k hk => hack hk }

end

omit [Storage σ η] in
theorem State.blocks (h : State P size content greeting limit fires m s) :
    s.store.blocks 0 = chunks size content m := by
  have hw : (writes size content m).filterMap (Call.block? 0) = chunks size content m := by
    simp [writes, List.filterMap_map, Function.comp_def, Call.block?]
  cases h.standing with
  | running file phase good more calls last => rw [Recorded.blocks, calls, hw]
  | completed phase all calls =>
    simp [Recorded.blocks, calls, List.filterMap_append, hw, Call.block?]
  | aborted phase more calls =>
    simp [Recorded.blocks, calls, List.filterMap_append, hw, Call.block?]

omit [Storage σ η] in
theorem State.accepted (h : State P size content greeting limit fires m s) : accepted s = m := by
  rw [Upload.accepted, h.blocks, Bytes.length_chunks]

def acceptedNext (s : Step (Recorded σ) (Numbered η)) (a : Arrival) : Nat :=
  if a = .chunk (accepted s) ∧ ¬s.transfer.terminal then accepted s + 1 else accepted s

theorem State.next (hP : Storage.Writable P) (hsize : 0 < size)
    (hg : ∀ k, greeting = Packet.bytes (.ack k) → k = 0)
    (h : State P size content greeting limit fires m s) {a : Arrival}
    (near : ∀ i, a = .chunk i → i < m + 65536 ∧ m < i + 65536) :
    State P size content greeting limit (fires + [a].count .timeout) (acceptedNext s a)
      (s.next (a.event size content)) := by
  rw [acceptedNext, h.accepted]
  cases h.standing with
  | running file phase good more calls last =>
    have hrun : s.transfer.terminal = false := by
      rw [Transfer.terminal, Phase.terminal, phase]
      rfl
    cases a with
    | timeout => simpa [Arrival.event] using h.timeout phase more calls good last hg
    | chunk i =>
      obtain ⟨hlo, hhi⟩ := near i rfl
      by_cases hi : i = m
      · subst hi
        simpa [Arrival.event, hrun] using h.wanted phase more calls hP hsize good
      · have hb := mt (number_eq_iff hlo hhi).1 hi
        simpa [hi, Arrival.event] using h.stale phase more calls good last hg hb _
  | completed phase all calls =>
    have ht : s.transfer.phase.file? = none := by rw [phase]; rfl
    simpa [Transfer.terminal, Phase.terminal, ht] using (h.over ht _).mono (Nat.le_add_right _ _)
  | aborted phase more calls =>
    have ht : s.transfer.phase.file? = none := by rw [phase]; rfl
    simpa [Transfer.terminal, Phase.terminal, ht] using (h.over ht _).mono (Nat.le_add_right _ _)

section

variable {file : η} {store : σ} (peer : Endpoint) (r : Request) (limits : Limits)

theorem begin_blockSize (file : η) (store : σ) :
    0 < (begin peer r limits file store).transfer.blockSize := by
  have hmin : 0 < minBlockSize := by decide
  have hb := (Transfer.blockSize_start peer .write r.filename (⟨file, 0⟩ : Numbered η) r.options
    limits ({ store := store } : Recorded σ)).1
  exact Nat.lt_of_lt_of_le hmin hb

theorem begin_state (hfile : P file store) (content : Bytes) :
    ∃ greeting, (∀ k, greeting = Packet.bytes (.ack k) → k = 0) ∧
      State P (begin peer r limits file store).transfer.blockSize content greeting limits.retries
        0 0 (begin peer r limits file store) := by
  let t := Transfer.new peer .write r.filename (⟨file, 0⟩ : Numbered η) (negotiate r.options).1
    limits
  have hp : t.phase = .negotiating ⟨file, 0⟩ := rfl
  have hn : ∀ size, 0 < chunkCount size content := fun size => Nat.succ_pos _
  have hb : begin peer r limits file store = t.start { store := store } := rfl
  rw [hb]
  by_cases ha : t.accepted.choices = []
  · have hg : ∀ k, Packet.bytes (.ack 0) = Packet.bytes (.ack k) → k = 0 :=
      fun k hk => (Packet.bytes_ack_injective hk).symm
    rw [Transfer.start_write hp rfl ha]
    exact ⟨_, hg, {
      standing := .running file rfl hfile (hn _) rfl rfl
      direction := rfl
      blockSize := rfl
      maxRetries := rfl
      block := rfl
      transferred := rfl
      retries := Nat.le_refl 0
      tired := fun h => by cases h
      acks := hg }⟩
  · have hg : ∀ os k, Packet.bytes (.optionAck os) = Packet.bytes (.ack k) → k = 0 := by
      intro os k hk
      simpa [Packet.opcode] using Packet.opcode_of_bytes hk
    obtain ⟨log, hs⟩ := Transfer.start_options hp ha ({ store := store } : Recorded σ)
    rw [hs]
    exact ⟨_, hg _, {
      standing := .running file rfl hfile (hn _) rfl rfl
      direction := rfl
      blockSize := rfl
      maxRetries := rfl
      block := rfl
      transferred := rfl
      retries := Nat.le_refl 0
      tired := fun h => by cases h
      acks := hg _ }⟩

theorem after_concat (s : Step (Recorded σ) (Numbered η)) (content : Bytes) (as : List Arrival)
    (a : Arrival) : after s content (as ++ [a]) =
      (after s content as).next (a.event s.transfer.blockSize content) := by
  simp [after, Step.run_concat]

theorem inWindow_nil (s : Step (Recorded σ) (Numbered η)) (content : Bytes) :
    InWindow s content [] := by
  intro before i h
  simp at h

theorem inWindow_concat {s : Step (Recorded σ) (Numbered η)} {content : Bytes} {as : List Arrival}
    {a : Arrival} : InWindow s content (as ++ [a]) ↔ InWindow s content as ∧
      ∀ i, a = .chunk i → i < content.chunkCount s.transfer.blockSize ∧
        i < accepted (after s content as) + 65536 ∧ accepted (after s content as) < i + 65536 := by
  constructor
  · intro h
    refine ⟨fun before i hp => h before i (hp.trans (List.prefix_append _ _)), ?_⟩
    rintro i rfl
    exact h as i (List.prefix_refl _)
  · intro ⟨h, ha⟩ before i hp
    rcases List.prefix_concat_iff.1 hp with heq | hp
    · obtain ⟨rfl, hi⟩ := List.append_inj' heq rfl
      exact ha i (by simpa using hi.symm)
    · exact h before i hp

theorem InWindow.timeout {s : Step (Recorded σ) (Numbered η)} {content : Bytes}
    {as : List Arrival} (h : InWindow s content as) : InWindow s content (as ++ [.timeout]) :=
  inWindow_concat.2 ⟨h, fun _ ha => nomatch ha⟩

theorem InWindow.chunk {s : Step (Recorded σ) (Numbered η)} {content : Bytes} {as : List Arrival}
    (h : InWindow s content as) {i : Nat} (hi : i < content.chunkCount s.transfer.blockSize ∧
      i < accepted (after s content as) + 65536 ∧ accepted (after s content as) < i + 65536) :
    InWindow s content (as ++ [.chunk i]) :=
  inWindow_concat.2 ⟨h, fun j hj => by cases hj; exact hi⟩

theorem state_after (hP : Storage.Writable P) {first : Step (Recorded σ) (Numbered η)}
    {content greeting : Bytes} {limit : Nat} (hsize : 0 < first.transfer.blockSize)
    (hg : ∀ k, greeting = Packet.bytes (.ack k) → k = 0)
    (hfirst : State P first.transfer.blockSize content greeting limit 0 0 first)
    {as : List Arrival} (window : InWindow first content as) :
    State P first.transfer.blockSize content greeting limit (as.count .timeout)
      (accepted (after first content as)) (after first content as) := by
  induction as using List.reverseRecOn with
  | nil =>
    change State _ _ _ _ _ _ (accepted first) first
    rw [hfirst.accepted]
    exact hfirst
  | append_singleton as a ih =>
    obtain ⟨window, near⟩ := inWindow_concat.1 window
    have hn := (ih window).next hP hsize hg fun i ha => (near i ha).2
    rw [after_concat, hn.accepted, List.count_append]
    exact hn

/-- What holds of an upload whenever some of its chunks have arrived. `accepted` counts the chunks
that were taken so far. -/
structure Exact (first : Step (Recorded σ) (Numbered η)) (limits : Limits) (content : Bytes)
    (as : List Arrival) : Prop where
  blocks : (after first content as).store.blocks 0 =
    content.chunks first.transfer.blockSize (accepted (after first content as))
  bound : accepted (after first content as) ≤ content.chunkCount first.transfer.blockSize
  block : (after first content as).transfer.block = UInt16.ofNat (accepted (after first content as))
  transferred : (after first content as).transfer.transferred =
    ((after first content as).store.blocks 0).flatten.length
  /-- No other call was made, except that the file was committed once, after its last chunk, and
  that a file is released when the transfer is over. -/
  calls : (after first content as).store.calls =
    writes first.transfer.blockSize content (accepted (after first content as)) ++
      if accepted (after first content as) = content.chunkCount first.transfer.blockSize then
        [.committed 0 true, .released 0]
      else if (after first content as).transfer.terminal then [.released 0] else []
  complete : accepted (after first content as) = content.chunkCount first.transfer.blockSize →
    ((after first content as).store.blocks 0).flatten = content
  acknowledged : ∀ k, (after first content as).action.packet = Packet.bytes (.ack k) →
    k = UInt16.ofNat (accepted (after first content as))
  ended : (after first content as).transfer.terminal →
    accepted (after first content as) = content.chunkCount first.transfer.blockSize ∨
      limits.retries < as.count .timeout
  next : ∀ a, InWindow first content (as ++ [a]) →
    accepted (after first content (as ++ [a])) = acceptedNext (after first content as) a

omit [Storage σ η] in
theorem State.bound (h : State P size content greeting limit fires m s) :
    m ≤ chunkCount size content := by
  cases h.standing with
  | running file phase good more => exact Nat.le_of_lt more
  | completed phase all => exact Nat.le_of_eq all
  | aborted phase more => exact Nat.le_of_lt more

omit [Storage σ η] in
theorem State.calls (h : State P size content greeting limit fires m s) :
    s.store.calls = writes size content m ++
      if m = chunkCount size content then [.committed 0 true, .released 0]
      else if s.transfer.terminal then [.released 0] else [] := by
  cases h.standing with
  | running file phase good more calls last =>
    simp [calls, Nat.ne_of_lt more, Transfer.terminal, Phase.terminal, Phase.file?, phase]
  | completed phase all calls => rw [calls, if_pos all]
  | aborted phase more calls =>
    simp [calls, Nat.ne_of_lt more, Transfer.terminal, Phase.terminal, Phase.file?, phase]

omit [Storage σ η] in
theorem State.ended (h : State P size content greeting limit fires m s)
    (ht : s.transfer.terminal) : m = chunkCount size content ∨ limit < fires := by
  cases h.standing with
  | running file phase => simp [Transfer.terminal, Phase.terminal, Phase.file?, phase] at ht
  | completed phase all => exact .inl all
  | aborted phase => exact .inr (h.tired phase)

/-- An upload over a file that does not fail stores the content and nothing else, whatever the
order in which chunks and timeouts arrive. The record of the calls has no part in what it does. -/
theorem upload_exact (hP : Storage.Writable P) (hfile : P file store) {content : Bytes}
    {as : List Arrival} (window : InWindow (begin peer r limits file store) content as) :
    let first := begin peer r limits file store
    (after first content as).map Numbered.file Recorded.store =
        ((Transfer.new peer .write r.filename file (negotiate r.options).1 limits).start store).run
          (as.map (Arrival.event first.transfer.blockSize content)) ∧
      Exact first limits content as := by
  intro first
  obtain ⟨greeting, hg, hbegin⟩ := begin_state peer r limits hfile content
  have hsize := begin_blockSize peer r limits file store
  have h := state_after hP hsize hg hbegin window
  have hfirst : first.map Numbered.file Recorded.store =
      (Transfer.new peer .write r.filename file (negotiate r.options).1 limits).start store :=
    (Transfer.start_map Recorded.image).symm
  refine ⟨by rw [after, ← Step.run_map Recorded.image, hfirst], ?_⟩
  exact {
    blocks := h.blocks
    bound := h.bound
    block := h.block
    transferred := by rw [h.transferred, h.blocks]
    calls := h.calls
    complete := fun hm => by rw [h.blocks, hm, Bytes.flatten_all_chunks hsize]
    acknowledged := h.acks
    ended := h.ended
    next := fun a hw => by
      have near := (inWindow_concat.1 hw).2
      rw [after_concat]
      exact (h.next hP hsize hg fun i ha => (near i ha).2).accepted }

end

theorem upload_exact_ten_bytes :
    let r : Request := ⟨ascii "f", octetMode, [⟨ascii "blksize", ascii "8"⟩]⟩
    let file : Memory.Handle := ⟨ascii "f", [], 0, []⟩
    let first := begin ⟨2130706433, 4000⟩ r {} file ([] : Memory.Files)
    let content : Bytes := [0, 1, 2, 3, 4, 5, 6, 7, 8, 9]
    let as := [.chunk 1, .timeout, .chunk 0, .chunk 0, .chunk 1]
    InWindow first content as ∧ Exact first {} content as := by
  intro r file first content as
  have window : InWindow first content as :=
    ((((inWindow_nil first content).chunk (i := 1) (by decide +kernel)).timeout.chunk (i := 0)
      (by decide +kernel)).chunk (i := 0) (by decide +kernel)).chunk (i := 1) (by decide +kernel)
  exact ⟨window, (upload_exact _ r {} Memory.writable ⟨rfl, rfl⟩ window).2⟩

end Upload
end Tftp
