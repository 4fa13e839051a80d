import Mathlib.Data.List.TakeWhile
import Mathlib.Tactic.Common
import Tftp.Bytes

namespace Tftp
namespace Bytes

variable {sep : UInt8}

theorem parts_cons (b : UInt8) (bs : Bytes) : parts sep (b :: bs) =
    if b = sep then [] :: parts sep bs else (b :: (splitOn sep bs).1) :: (splitOn sep bs).2 := by
  rcases hs : splitOn sep bs with ⟨part, others⟩
  simp only [parts, splitOn_cons, hs, splitStep]
  split <;> rfl

theorem parts_ne_nil (sep : UInt8) (bs : Bytes) : parts sep bs ≠ [] := nofun

theorem parts_append (a b : Bytes) : parts sep (a ++ sep :: b) = parts sep a ++ parts sep b := by
  induction a with
  | nil =>
    rw [List.nil_append, parts_cons, if_pos rfl]
    rfl
  | cons x a ih =>
    simp only [List.cons_append, parts_cons]
    split
    · rw [ih, List.cons_append]
    · simp only [parts, List.cons_append, List.cons.injEq] at ih ⊢
      exact ⟨⟨trivial, ih.1⟩, ih.2⟩

theorem parts_of_not_mem {a : Bytes} (h : sep ∉ a) : parts sep a = [a] := by
  induction a with
  | nil => rfl
  | cons x a ih =>
    simp only [List.mem_cons, not_or] at h
    have ih := ih h.2
    simp only [parts, List.cons.injEq] at ih
    rw [parts_cons, if_neg (Ne.symm h.1), ih.1, ih.2]

theorem parts_lines {lines : List Bytes} (h : ∀ line ∈ lines, sep ∉ line) :
    parts sep (lines.flatMap (· ++ [sep])) = lines ++ [[]] := by
  induction lines with
  | nil => rfl
  | cons line lines ih =>
    obtain ⟨hline, hlines⟩ := List.forall_mem_cons.1 h
    rw [List.flatMap_cons, List.append_assoc, List.singleton_append, parts_append,
      parts_of_not_mem hline, ih hlines]
    rfl

theorem mem_of_mem_parts {bs part : Bytes} {b : UInt8} (hp : part ∈ parts sep bs) (hb : b ∈ part) :
    b ∈ bs := by
  induction bs generalizing part with
  | nil => simp_all [parts]
  | cons x bs ih =>
    rw [parts_cons] at hp
    split at hp
    · rcases List.mem_cons.1 hp with rfl | hp
      · cases hb
      · exact List.mem_cons_of_mem x (ih hp hb)
    · rcases List.mem_cons.1 hp with rfl | hp
      · rcases List.mem_cons.1 hb with rfl | hb
        · exact List.mem_cons_self
        · exact List.mem_cons_of_mem x (ih List.mem_cons_self hb)
      · exact List.mem_cons_of_mem x (ih (List.mem_cons_of_mem _ hp) hb)

theorem not_mem_of_mem_parts {bs part : Bytes} (hp : part ∈ parts sep bs) : sep ∉ part := by
  induction bs generalizing part with
  | nil => simp_all [parts]
  | cons x bs ih =>
    rw [parts_cons] at hp
    split at hp
    · rcases List.mem_cons.1 hp with rfl | hp
      · nofun
      · exact ih hp
    · rename_i hx
      rcases List.mem_cons.1 hp with rfl | hp
      · have hfirst : sep ∉ (splitOn sep bs).1 := ih List.mem_cons_self
        simp [hfirst, Ne.symm hx]
      · exact ih (List.mem_cons_of_mem _ hp)

theorem intercalate_parts (sep : UInt8) (bs : Bytes) : [sep].intercalate (parts sep bs) = bs := by
  induction bs with
  | nil => rfl
  | cons b bs ih =>
    rw [parts_cons]
    split
    · rename_i hb
      rw [List.intercalate_cons_of_ne_nil (parts_ne_nil sep bs), ih, hb]
      rfl
    · rw [parts] at ih
      cases hs : (splitOn sep bs).2 with
      | nil =>
        rw [hs, List.intercalate_singleton] at ih
        rw [List.intercalate_singleton, ih]
      | cons part others =>
        rw [hs, List.intercalate_cons_cons] at ih
        rw [List.intercalate_cons_cons, List.cons_append, List.cons_append, ih]

theorem mem_parts_of_dropWhile {bs part : Bytes} (h : part ∈ parts sep (bs.dropWhile (· == sep))) :
    part ∈ parts sep bs := by
  induction bs with
  | nil => exact h
  | cons b bs ih =>
    rw [List.dropWhile_cons] at h
    split at h
    · rename_i hb
      rw [parts_cons, if_pos (by simpa using hb)]
      exact List.mem_cons_of_mem _ (ih h)
    · exact h

theorem untilNul_eq {bs : Bytes} (h : 0 ∉ bs) : untilNul bs = bs := by
  rw [untilNul, List.takeWhile_eq_self_iff]
  intro b hb
  simpa using ne_of_mem_of_not_mem hb h

theorem not_mem_untilNul (bs : Bytes) : 0 ∉ untilNul bs := by
  intro h
  have := List.mem_takeWhile_imp h
  simp at this

theorem untilNul_append {a : Bytes} (h : 0 ∉ a) (b : Bytes) : untilNul (a ++ b) = a ++ untilNul b :=
  List.takeWhile_append_of_pos fun x hx => by simpa using ne_of_mem_of_not_mem hx h

theorem untilNul_append_of_mem {a : Bytes} (h : 0 ∈ a) (b : Bytes) :
    untilNul (a ++ b) = untilNul a := by
  obtain ⟨c, d, rfl, hc⟩ := List.eq_append_cons_of_mem h
  rw [List.append_assoc, untilNul_append hc, untilNul_append hc]
  rfl

end Bytes
end Tftp
