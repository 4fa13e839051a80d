import Mathlib.Algebra.GroupWithZero.Nat
import Mathlib.Data.List.SplitLengths
import Mathlib.Tactic.Common
import Tftp.Proofs.Storage.Simulation

namespace Tftp

structure Cursor where
  content : Bytes
  position : Nat := 0

namespace Cursor

def rest (c : Cursor) : Bytes := c.content.drop c.position

def advance (c : Cursor) (n : Nat) : Cursor :=
  { c with position := c.position + (c.rest.take n).length }

@[simp] theorem content_advance (c : Cursor) (n : Nat) : (c.advance n).content = c.content := rfl

theorem rest_advance (c : Cursor) (n : Nat) : (c.advance n).rest = c.rest.drop n := by
  have hdrop : (c.advance n).rest = c.rest.drop (c.rest.take n).length := by
    rw [rest, content_advance, advance, ← List.drop_drop]
    rfl
  -- at the end there are fewer bytes to pass than were asked for
  rw [hdrop, List.length_take]
  rcases Nat.le_total n c.rest.length with h | h
  · rw [Nat.min_eq_left h]
  · rw [Nat.min_eq_right h, List.drop_length, List.drop_eq_nil_of_le h]

end Cursor

/-- Cursors are read and nothing else. Behind them is no store, so none is opened under a name. -/
instance : Storage Unit Cursor where
  resolve name _ := .ok name
  openRead path _ := (.error ⟨.fileNotFound, path⟩, ())
  openWrite path _ := (.error ⟨.accessViolation, path⟩, ())
  size c _ := c.content.length.toUInt64
  read n c _ := (.ok (c.rest.take n), c.advance n, ())
  write _ c _ := (.error ⟨.illegalOperation, ascii "File is open for reading"⟩, c, ())
  commit c _ := (.ok (), c, ())
  release _ _ := ([], ())

theorem Cursor.pieces_eq (c : Cursor) (sizes : List Nat) :
    Storage.pieces c () sizes = (sizes.splitLengths c.rest).map .ok := by
  induction sizes generalizing c with
  | nil => rfl
  | cons n sizes ih =>
    rw [List.splitLengths_cons, List.map_cons, ← c.rest_advance n, ← ih]
    rfl

/-- A piece that goes on where the pieces before it end. It is as long as was asked for, unless less
is left; then the content is at its end, and all later pieces are empty. -/
structure Follows (content : Bytes) (taken : List Bytes) (n : Nat) (piece : Bytes)
    (later : List Bytes) : Prop where
  inOrder : taken.flatten ++ piece <+: content
  length : piece.length = min n (content.length - taken.flatten.length)
  ended : piece.length < n → taken.flatten ++ piece = content ∧ ∀ p ∈ later, p = []

structure InOrder (content : Bytes) (sizes : List Nat) (pieces : List Bytes) : Prop where
  length : pieces.length = sizes.length
  follows : ∀ before n after, sizes = before ++ n :: after →
    ∃ taken piece later, pieces = taken ++ piece :: later ∧ taken.length = before.length ∧
      Follows content taken n piece later

theorem splitLengths_append (before after : List Nat) (content : Bytes) :
    (before ++ after).splitLengths content =
      before.splitLengths content ++ after.splitLengths (content.drop before.sum) := by
  induction before generalizing content with
  | nil => rfl
  | cons n before ih =>
    simp only [List.cons_append, List.splitLengths_cons, ih, List.drop_drop, List.sum_cons]

theorem flatten_splitLengths_eq_take (sizes : List Nat) (content : Bytes) :
    (sizes.splitLengths content).flatten = content.take sizes.sum := by
  induction sizes generalizing content with
  | nil => rfl
  | cons n sizes ih =>
    rw [List.splitLengths_cons, List.flatten_cons, ih, List.sum_cons, List.take_add]

theorem eq_nil_of_mem_splitLengths {sizes : List Nat} {p : Bytes}
    (h : p ∈ sizes.splitLengths ([] : Bytes)) : p = [] := by
  induction sizes with
  | nil => cases h
  | cons n sizes ih =>
    rw [List.splitLengths_cons, List.take_nil, List.drop_nil] at h
    rcases List.mem_cons.1 h with h | h
    · exact h
    · exact ih h

theorem follows_splitLengths (content : Bytes) (before : List Nat) (n : Nat) (after : List Nat) :
    Follows content (before.splitLengths content) n ((content.drop before.sum).take n)
      (after.splitLengths ((content.drop before.sum).drop n)) := by
  have htaken := flatten_splitLengths_eq_take before content
  have hnext : (before.splitLengths content).flatten ++ (content.drop before.sum).take n =
      content.take (before.sum + n) := by
    rw [htaken, List.take_add]
  have hlength : ((content.drop before.sum).take n).length =
      min n (content.length - before.sum) := by
    rw [List.length_take, List.length_drop]
  refine ⟨?_, ?_, fun hshort => ?_⟩
  · rw [hnext]
    exact List.take_prefix _ _
  · rw [hlength, htaken, List.length_take]
    omega
  · have hend : content.length ≤ before.sum + n := by omega
    refine ⟨hnext.trans (List.take_of_length_le hend), fun p hp => ?_⟩
    rw [List.drop_drop, List.drop_eq_nil_of_le hend] at hp
    exact eq_nil_of_mem_splitLengths hp

theorem inOrder_splitLengths (content : Bytes) (sizes : List Nat) :
    InOrder content sizes (sizes.splitLengths content) where
  length := List.length_splitLengths content sizes
  follows before n after h := by
    refine ⟨_, _, _, ?_, List.length_splitLengths content before,
      follows_splitLengths content before n after⟩
    rw [h, splitLengths_append, List.splitLengths_cons]

end Tftp
