import Tftp.Packet.Wire

namespace Tftp
namespace Bytes

theorem ofWord_injective {m n : UInt16} (h : ofWord m = ofWord n) : m = n := by
  rw [← word_ofWord m, ← word_ofWord n]
  simp only [ofWord, List.cons.injEq, and_true] at h
  rw [h.1, h.2]

end Bytes

namespace Packet

@[simp] theorem bytes_ne_nil (p : Packet) : p.bytes ≠ [] := by
  simp [bytes, Bytes.ofWord]

@[simp] theorem bytes_isEmpty (p : Packet) : p.bytes.isEmpty = false := by
  simp [bytes, Bytes.ofWord]

@[simp] theorem opcodeOf_bytes (p : Packet) : opcodeOf p.bytes = p.opcode := by
  simp [bytes, Bytes.ofWord, opcodeOf]

theorem opcode_of_bytes {p q : Packet} (h : p.bytes = q.bytes) : p.opcode = q.opcode := by
  simpa using congrArg opcodeOf h

theorem bytes_data_injective {m n : UInt16} {payload payload' : Bytes}
    (h : bytes (.data m payload) = bytes (.data n payload')) : payload = payload' := by
  simp only [bytes, body, Bytes.ofWord, List.cons_append, List.nil_append, List.cons.injEq] at h
  exact h.2.2.2.2

theorem bytes_ack_injective {m n : UInt16} (h : bytes (.ack m) = bytes (.ack n)) : m = n :=
  Bytes.ofWord_injective (List.append_cancel_left h)

end Packet
end Tftp
