import Tftp.Proofs.Packet.Grammar
import Tftp.Proofs.Packet.Opcode

namespace Tftp
namespace Packet

def Representable : Packet → Prop
  | .request _ r => r.filename ≠ [] ∧ 0 ∉ r.filename ∧ 0 ∉ r.mode ∧
      Bytes.sameName r.mode octetMode ∧ PlainOptions r.options
  | .data _ payload => payload.length ≤ maxBlockSize
  | .ack _ => True
  | .error _ message => 0 ∉ message
  | .optionAck options => PlainOptions options

/-- The part of a datagram that its packet accounts for: an ERROR ends with its message. -/
def extent (d : Bytes) : Packet → Bytes
  | .error _ message => d.take (4 + message.length + 1)
  | _ => d

theorem bigEndian_ofWord (n : UInt16) : BigEndian (n / 256).toUInt8 n.toUInt8 n :=
  bigEndian_iff.2 (Bytes.word_ofWord n).symm

theorem ofWord_of_bigEndian {hi lo : UInt8} {n : UInt16} (h : BigEndian hi lo n) :
    Bytes.ofWord n = [hi, lo] := by
  rw [bigEndian_iff.1 h, Bytes.ofWord_word]

theorem bytes_eq {p : Packet} {b : UInt8} (h : p.opcode = b.toUInt16) :
    p.bytes = 0 :: b :: p.body := by
  have hn : BigEndian 0 b p.opcode := by simp [BigEndian, h]
  rw [bytes, ofWord_of_bigEndian hn]
  rfl

theorem ne_nil_of_octet {mode : Bytes} (h : Bytes.sameName mode octetMode) : mode ≠ [] := by
  rintro rfl
  exact absurd h (by decide)

theorem asks_iff {d : Bytes} {direction : Direction} {r : Request} : Asks d direction r ↔
    d = bytes (.request direction r) ∧ r.filename ≠ [] ∧ 0 ∉ r.filename ∧ r.mode ≠ [] ∧
      0 ∉ r.mode ∧ PlainOptions r.options := by
  constructor
  · intro h
    cases h with
    | read h =>
      obtain ⟨rfl, hr⟩ := (requestText_iff .read).1 h
      exact ⟨(bytes_eq (b := 1) rfl).symm, hr⟩
    | write h =>
      obtain ⟨rfl, hr⟩ := (requestText_iff .write).1 h
      exact ⟨(bytes_eq (b := 2) rfl).symm, hr⟩
  · rintro ⟨rfl, hr⟩
    cases direction with
    | read =>
      rw [bytes_eq (b := 1) rfl]
      exact .read ((requestText_iff .read).2 ⟨rfl, hr⟩)
    | write =>
      rw [bytes_eq (b := 2) rfl]
      exact .write ((requestText_iff .write).2 ⟨rfl, hr⟩)

theorem Carries.representable {d : Bytes} {p : Packet} (h : Carries d p) :
    p.Representable ∧ p.bytes = extent d p := by
  cases h with
  | request ha hm =>
    obtain ⟨rfl, hfilename, hf, -, hmode, hp⟩ := asks_iff.1 ha
    exact ⟨⟨hfilename, hf, hmode, hm, hp⟩, rfl⟩
  | data hn hl =>
    refine ⟨hl, ?_⟩
    rw [bytes_eq (b := 3) rfl, body, ofWord_of_bigEndian hn]
    rfl
  | ack hn =>
    refine ⟨trivial, ?_⟩
    rw [bytes_eq (b := 4) rfl, body, ofWord_of_bigEndian hn]
    rfl
  | @error hi lo code message trailing hn hm =>
    have hd : 0 :: 5 :: hi :: lo :: (message ++ 0 :: trailing) =
        (0 :: 5 :: hi :: lo :: (message ++ [0])) ++ trailing := by simp
    refine ⟨hm, ?_⟩
    rw [bytes_eq (b := 5) rfl, body, ofWord_of_bigEndian hn, extent, hd,
      List.take_left' (by simp; omega)]
    rfl
  | optionAck hp =>
    obtain ⟨rfl, hplain⟩ := pairs_iff.1 hp
    exact ⟨hplain, bytes_eq (b := 6) rfl⟩

theorem filename_of_decode {d : Bytes} {direction : Direction} {r : Request}
    (h : decode d = .ok (.request direction r)) : 0 ∉ r.filename :=
  (decode_eq_ok_iff.1 h).representable.1.2.1

theorem Carries.opcodeOf {d : Bytes} {p : Packet} (h : Carries d p) : opcodeOf d = p.opcode := by
  cases h with
  | request ha hm =>
    obtain ⟨rfl, -⟩ := asks_iff.1 ha
    exact opcodeOf_bytes _
  | data => exact (by decide : Bytes.word 0 3 = 3)
  | ack => exact (by decide : Bytes.word 0 4 = 4)
  | error => exact (by decide : Bytes.word 0 5 = 5)
  | optionAck => exact (by decide : Bytes.word 0 6 = 6)

theorem opcode_of_decode {p q : Packet} (h : decode p.bytes = .ok q) : p.opcode = q.opcode :=
  (opcodeOf_bytes p).symm.trans (decode_eq_ok_iff.1 h).opcodeOf

theorem Representable.carries {p : Packet} (h : p.Representable) : Carries p.bytes p := by
  cases p with
  | request direction r =>
    obtain ⟨hfilename, hf, hmode, hm, hp⟩ := h
    exact .request (asks_iff.2 ⟨rfl, hfilename, hf, ne_nil_of_octet hm, hmode, hp⟩) hm
  | data block payload =>
    rw [bytes_eq (b := 3) rfl]
    exact .data (bigEndian_ofWord block) h
  | ack block =>
    rw [bytes_eq (b := 4) rfl]
    exact .ack (bigEndian_ofWord block)
  | error code message =>
    rw [bytes_eq (b := 5) rfl]
    exact .error (bigEndian_ofWord code.number) h
  | optionAck options =>
    rw [bytes_eq (b := 6) rfl]
    exact .optionAck (pairs_iff.2 ⟨rfl, h⟩)

theorem Representable.encode {p : Packet} (h : p.Representable) : p.encode = .ok p.bytes := by
  cases p with
  | data block payload => exact if_neg (Nat.not_lt_of_le h)
  | request | ack | error | optionAck => rfl

theorem encode_eq_error_iff {p : Packet} {e : EncodeError} : encode p = .error e ↔
    ∃ block payload, p = .data block payload ∧ maxBlockSize < payload.length := by
  cases e
  constructor
  · intro h
    unfold encode at h
    split at h
    · split at h
      · exact ⟨_, _, rfl, ‹_›⟩
      · cases h
    · cases h
  · rintro ⟨block, payload, rfl, hl⟩
    exact if_pos hl

/-- Reading what was written gives a packet back if, and only if, it is representable; what cannot
be written at all is a payload that is too long. -/
theorem decode_encode_iff (p : Packet) :
    ((∃ d, encode p = .ok d ∧ decode d = .ok p) ↔ p.Representable) ∧
    ((∃ e, encode p = .error e) ↔
      ∃ block payload, p = .data block payload ∧ maxBlockSize < payload.length) := by
  constructor
  · constructor
    · rintro ⟨d, he, hd⟩
      exact (decode_eq_ok_iff.1 hd).representable.1
    · intro h
      exact ⟨p.bytes, h.encode, decode_of_carries h.carries⟩
  · constructor
    · rintro ⟨e, he⟩
      exact encode_eq_error_iff.1 he
    · intro h
      exact ⟨.payloadTooLong, encode_eq_error_iff.2 h⟩

/-- The decoder accepts exactly the datagrams of the grammar, each of which carries one packet and
is, to the extent of the packet, its written form. A request in another mode is told from what is
malformed. -/
theorem decode_grammar (d : Bytes) :
    (∀ p, decode d = .ok p ↔ Carries d p) ∧
    (∀ p q, Carries d p → Carries d q → p = q) ∧
    (∀ p, Carries d p → encode p = .ok (extent d p)) ∧
    (decode d = .error .unsupportedMode ↔
      ∃ direction r, Asks d direction r ∧ ¬ Bytes.sameName r.mode octetMode) ∧
    (decode d = .error .malformed ↔ (¬ ∃ p, Carries d p) ∧
      ¬ ∃ direction r, Asks d direction r ∧ ¬ Bytes.sameName r.mode octetMode) := by
  refine ⟨fun p => decode_eq_ok_iff, ?_, ?_, decode_eq_unsupportedMode_iff, ?_⟩
  · intro p q hp hq
    exact Except.ok.inj ((decode_of_carries hp).symm.trans (decode_of_carries hq))
  · intro p hp
    obtain ⟨hr, hb⟩ := hp.representable
    rw [hr.encode, hb]
  · simp only [← decode_eq_ok_iff, ← decode_eq_unsupportedMode_iff]
    rcases decode d with (_ | _) | p <;> simp

end Packet
end Tftp
