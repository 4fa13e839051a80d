import Mathlib.Tactic.Common
import Tftp.Bytes

namespace Tftp
namespace Bytes

def chunk (size : Nat) (content : Bytes) (i : Nat) : Bytes := (content.drop (i * size)).take size

def chunks (size : Nat) (content : Bytes) (n : Nat) : List Bytes :=
  (List.range n).map (chunk size content)

def chunkCount (size : Nat) (content : Bytes) : Nat := content.length / size + 1

variable {size : Nat} {content : Bytes}

@[simp] theorem chunks_zero : chunks size content 0 = [] := rfl

theorem chunks_succ (n : Nat) :
    chunks size content (n + 1) = chunks size content n ++ [chunk size content n] := by
  simp [chunks, List.range_succ]

@[simp] theorem length_chunks (n : Nat) : (chunks size content n).length = n := by
  simp [chunks]

theorem length_chunk_le (i : Nat) : (chunk size content i).length ≤ size :=
  List.length_take_le _ _

theorem length_chunk (h : 0 < size) {i : Nat} (hi : i + 1 < chunkCount size content) :
    (chunk size content i).length = size := by
  have hi : (i + 1) * size ≤ content.length :=
    (Nat.le_div_iff_mul_le h).1 (Nat.lt_succ_iff.1 hi)
  rw [Nat.succ_mul] at hi
  simp only [chunk, List.length_take, List.length_drop]
  omega

theorem length_chunk_last (h : 0 < size) {i : Nat} (hi : i + 1 = chunkCount size content) :
    (chunk size content i).length < size := by
  obtain rfl : i = content.length / size := Nat.succ.inj hi
  have := Nat.div_add_mod' content.length size
  have := Nat.mod_lt content.length h
  simp only [chunk, List.length_take, List.length_drop]
  omega

theorem length_chunk_lt_iff (h : 0 < size) {i : Nat} (hi : i < chunkCount size content) :
    (chunk size content i).length < size ↔ i + 1 = chunkCount size content := by
  constructor
  · intro hs
    by_contra hne
    have := length_chunk h (Nat.lt_of_le_of_ne hi hne)
    omega
  · exact length_chunk_last h

theorem flatten_chunks (n : Nat) : (chunks size content n).flatten = content.take (n * size) := by
  induction n with
  | zero => simp
  | succ n ih =>
    rw [chunks_succ, List.flatten_append, ih, Nat.succ_mul, List.take_add]
    simp [chunk]

theorem flatten_all_chunks (h : 0 < size) :
    (chunks size content (chunkCount size content)).flatten = content := by
  have := Nat.div_add_mod' content.length size
  have := Nat.mod_lt content.length h
  rw [flatten_chunks, chunkCount, Nat.succ_mul]
  exact List.take_of_length_le (by omega)

end Bytes
end Tftp
