import Tftp.Disk.Served
import Tftp.Proofs.Bytes

namespace Tftp
namespace Disk

structure Split (t dir : Bytes) (gap : Nat) (n : Name) : Prop where
  text : t = dir ++ slash :: (List.replicate gap slash ++ n)
  name : slash ∉ n
  last : dir.getLast? ≠ some slash

theorem takeWhile_slash (l : Bytes) :
    ∃ n, l.takeWhile (· == slash) = List.replicate n slash := by
  refine ⟨(l.takeWhile (· == slash)).length, List.eq_replicate_iff.2 ⟨rfl, fun b hb => ?_⟩⟩
  simpa using List.mem_takeWhile_imp hb

theorem exists_split {text : Bytes} (h : slash ∈ text) :
    ∃ dir gap name, Split text dir gap name := by
  let name := text.reverse.takeWhile (· != slash)
  let front := text.reverse.dropWhile (· != slash)
  let dir := front.dropWhile (· == slash)
  have htext : name ++ front = text.reverse := List.takeWhile_append_dropWhile
  have hname : slash ∉ name := fun hm => by
    have := List.mem_takeWhile_imp hm
    simp at this
  obtain ⟨n, hn⟩ := takeWhile_slash front
  have hfront : List.replicate n slash ++ dir = front := by
    rw [← hn]
    exact List.takeWhile_append_dropWhile
  have hhead : front.head? = some slash := by
    have hne : front ≠ [] := fun hn => by
      have := List.dropWhile_eq_nil_iff.1 hn slash (List.mem_reverse.2 h)
      simp at this
    obtain ⟨b, rest, hb⟩ := List.exists_cons_of_ne_nil hne
    have hnot := List.head?_dropWhile_not (· != slash) text.reverse
    rw [show text.reverse.dropWhile (· != slash) = b :: rest from hb] at hnot
    simpa [hb] using hnot
  have hlast : dir.head? ≠ some slash := by
    intro hs
    have hnot := List.head?_dropWhile_not (· == slash) front
    rw [show (front.dropWhile (· == slash)).head? = some slash from hs] at hnot
    simp at hnot
  cases n with
  | zero =>
    rw [← hfront] at hhead
    exact absurd hhead hlast
  | succ gap =>
    have hrev : text = (name ++ (List.replicate (gap + 1) slash ++ dir)).reverse := by
      rw [hfront, htext, List.reverse_reverse]
    refine ⟨dir.reverse, gap, name.reverse, ?_, by simpa using hname, ?_⟩
    · rw [hrev]
      simp [List.replicate_succ']
    · rwa [List.getLast?_reverse]

section

variable {text dir : Bytes} {gap : Nat} {name : Name} (h : Split text dir gap name)

include h

theorem Split.reverse :
    text.reverse = name.reverse ++ slash :: (List.replicate gap slash ++ dir.reverse) := by
  rw [h.text]
  simp [← List.replicate_succ', List.replicate_succ]

theorem Split.plain : ∀ b ∈ name.reverse, (b != slash) = true := fun b hb => by
  simpa using ne_of_mem_of_not_mem (List.mem_reverse.1 hb) h.name

theorem Split.filename : filename text = name := by
  rw [Disk.filename, h.reverse, List.takeWhile_append_of_pos h.plain]
  simp

theorem Split.parent : parent text = if dir = [] then [slash] else dir := by
  have hhead : dir.reverse.head? ≠ some slash := by
    rw [List.head?_reverse]
    exact h.last
  have hfront : text.reverse.dropWhile (· != slash) =
      slash :: (List.replicate gap slash ++ dir.reverse) := by
    rw [h.reverse, List.dropWhile_append_of_pos h.plain]
    simp
  have hdir : (slash :: (List.replicate gap slash ++ dir.reverse)).dropWhile (· == slash) =
      dir.reverse := by
    rw [← List.cons_append, ← List.replicate_succ, List.dropWhile_append_of_pos]
    · exact List.dropWhile_beq_eq_self_of_head?_ne hhead
    · intro b hb
      simpa using List.eq_of_mem_replicate hb
  rw [Disk.parent, hfront, hdir]
  cases dir with
  | nil => simp
  | cons b dir => simp

end

theorem Split.parts {text dir : Bytes} {gap : Nat} {name : Name} (h : Split text dir gap name) :
    Bytes.parts slash text = Bytes.parts slash dir ++ (List.replicate gap [] ++ [name]) := by
  have hgap : ∀ n, Bytes.parts slash (List.replicate n slash ++ name) =
      List.replicate n [] ++ [name] := by
    intro n
    induction n with
    | zero => exact Bytes.parts_of_not_mem h.name
    | succ n ih => simp only [List.replicate_succ, List.cons_append, Bytes.parts_cons, if_true, ih]
  rw [h.text, Bytes.parts_append, hgap]

theorem exists_last_part {text : Bytes} (hne : text ≠ []) (hl : text.getLast? ≠ some slash) :
    ∃ init x, Bytes.parts slash text = init ++ [x] ∧ x ≠ [] := by
  by_cases hs : slash ∈ text
  · obtain ⟨dir, gap, x, split⟩ := exists_split hs
    refine ⟨Bytes.parts slash dir ++ List.replicate gap [], x, by
      rw [split.parts, List.append_assoc], ?_⟩
    rintro rfl
    rw [split.text, List.append_nil, ← List.replicate_succ] at hl
    simp [List.getLast?_append, List.getLast?_replicate] at hl
  · exact ⟨[], text, Bytes.parts_of_not_mem hs, hne⟩

theorem Split.join {text dir : Bytes} {gap : Nat} {name : Name} (h : Split text dir gap name)
    (other : Name) : join (Disk.parent text) other = dir ++ slash :: other := by
  rw [h.parent]
  split
  · rename_i hd
    subst hd
    simp [Disk.join]
  · rename_i hd
    have hl := h.last
    simp [Disk.join, hd, hl]

/-- The last name in a text, whatever slashes follow it. -/
def lastName? (text : Bytes) : Option Name :=
  ((Bytes.parts slash (Bytes.untilNul text)).reverse.dropWhile (·.isEmpty)).head?

def stagingLast (name tag : Bytes) : Name := 46 :: name ++ ascii ".tftpff-" ++ tag

theorem Split.stagingName {text dir : Bytes} {gap : Nat} {name : Name}
    (h : Split text dir gap name) (tag : Bytes) :
    Served.stagingName text tag = dir ++ slash :: stagingLast name tag := by
  rw [Served.stagingName, h.join, h.filename]
  rfl

theorem Split.staging {text dir : Bytes} {gap : Nat} {name : Name}
    (h : Split text dir gap name) {tag : Bytes} (ht : slash ∉ tag) :
    Split (Served.stagingName text tag) dir 0 (stagingLast name tag) where
  text := h.stagingName tag
  name := by
    have hplain : slash ∉ ascii ".tftpff-" := by decide
    have hdot : slash ≠ 46 := by decide
    simp [stagingLast, h.name, ht, hplain, hdot]
  last := h.last

theorem proper_stagingLast (name tag : Bytes) : stagingLast name tag ≠ [] ∧
    stagingLast name tag ≠ here ∧ stagingLast name tag ≠ above := by
  have hl : 9 ≤ (stagingLast name tag).length := by
    have ha : (ascii ".tftpff-").length = 8 := by decide
    simp only [stagingLast, List.length_append, List.length_cons, ha]
    omega
  refine ⟨?_, ?_, ?_⟩ <;> intro h <;> rw [h] at hl <;> revert hl <;> decide

theorem stagingLast_tag {name name' tag tag' : Bytes} (ht : 46 ∉ tag) (ht' : 46 ∉ tag')
    (h : stagingLast name tag = stagingLast name' tag') : tag = tag' := by
  have hcut : ∀ n t : Bytes, 46 ∉ t →
      (stagingLast n t).reverse.takeWhile (· != 46) = t.reverse ++ (ascii "tftpff-").reverse := by
    intro n t ht
    have hplain : (ascii "tftpff-").reverse.all (· != 46) = true := by decide
    have hsplit : (stagingLast n t).reverse =
        (t.reverse ++ (ascii "tftpff-").reverse) ++ 46 :: (46 :: n).reverse := by
      simp [stagingLast, ascii]
    rw [hsplit, List.takeWhile_append_of_pos]
    · simp
    · intro b hb
      rcases List.mem_append.1 hb with hb | hb
      · simpa using ne_of_mem_of_not_mem (List.mem_reverse.1 hb) ht
      · exact List.all_eq_true.1 hplain b hb
  have heq := hcut name tag ht
  rw [h, hcut name' tag' ht'] at heq
  exact (List.reverse_inj.1 (List.append_cancel_right heq)).symm

end Disk
end Tftp
