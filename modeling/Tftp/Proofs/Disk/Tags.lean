import Tftp.Proofs.Disk.Opening

namespace Tftp
namespace Disk

structure Tagging (tags : Nat → Bytes) : Prop where
  apart : Function.Injective tags
  plain : ∀ i, 0 ∉ tags i
  flat : ∀ i, slash ∉ tags i
  undotted : ∀ i, 46 ∉ tags i

/-- A place whose name no staging file can have. -/
def Visible (tags : Nat → Bytes) (p : Place) : Prop :=
  ∀ x i, p.getLast? ≠ some (stagingLast x (tags i))

def undotted (n : Name) : Bool := n.head? ≠ some 46

theorem ne_stagingLast_of_undotted {n : Name} (h : undotted n) (x tag : Bytes) :
    n ≠ stagingLast x tag := by
  rintro rfl
  simp [undotted, stagingLast] at h

theorem visible_of_undotted {tags : Nat → Bytes} {p : Place} (h : p.getLast?.all undotted) :
    Visible tags p := by
  intro x i hl
  rw [hl] at h
  exact ne_stagingLast_of_undotted h x (tags i) rfl

theorem visible_of_entries {t : Tree} (h : ∀ e ∈ t.entries, e.1.getLast?.all undotted)
    {tags : Nat → Bytes} (p : Place) (hp : t.node? p ≠ none) : Visible tags p := by
  by_cases hne : p = []
  · subst hne
    nofun
  · obtain ⟨n, hn⟩ := Option.ne_none_iff_exists'.1 hp
    rw [Tree.node?_of_ne_nil hne] at hn
    obtain ⟨_, _, heq, _⟩ := List.lookup_eq_some_iff.1 hn
    exact visible_of_undotted (h (p, n) (by simp [heq]))

/-- Tags of one second. While there are only a few of them they have seven letters. -/
def letterTags (i : Nat) : Bytes :=
  ascii "1760000000-" ++ (List.replicate (6 + i / 26) 97 ++ [(97 + i % 26).toUInt8])

theorem not_mem_letterTags {b : UInt8} (hb : b < 97) (hout : b ∉ ascii "1760000000-") (i : Nat) :
    b ∉ letterTags i := by
  have hletters : b ∉ List.replicate (6 + i / 26) 97 ++ [(97 + i % 26).toUInt8] := by
    intro hm
    refine absurd hb (UInt8.not_lt.2 ?_)
    rcases List.mem_append.1 hm with hm | hm
    · rw [List.eq_of_mem_replicate hm]
      decide
    · rw [List.mem_singleton.1 hm, UInt8.le_iff_toNat_le]
      simp
      omega
  exact List.not_mem_append hout hletters

theorem tagging_letterTags : Tagging letterTags := by
  refine ⟨fun i j h => ?_, not_mem_letterTags (by decide) (by decide),
    not_mem_letterTags (by decide) (by decide), not_mem_letterTags (by decide) (by decide)⟩
  have hletters := List.append_cancel_left h
  have hlen := congrArg List.length hletters
  have hlast := congrArg List.getLast? hletters
  simp only [List.length_append, List.length_replicate, List.length_singleton,
    List.getLast?_concat, Option.some.injEq] at hlen hlast
  have hmod := congrArg UInt8.toNat hlast
  simp at hmod
  omega

def Served.tagUsed (s : Served) : Bool :=
  s.tree.entries.any fun e => e.1.getLast?.any (s.tags s.drawn).isSuffixOf

theorem fresh_of_tagUsed {s : Served} (h : s.tagUsed = false) : s.Fresh := by
  intro p x hp hx
  have hne : p ≠ [] := by
    rintro rfl
    cases hx
  rw [Tree.node?_of_ne_nil hne] at hp
  obtain ⟨n, hn⟩ := Option.ne_none_iff_exists'.1 hp
  obtain ⟨l, l', he, _⟩ := List.lookup_eq_some_iff.1 hn
  have hm : (p, n) ∈ s.tree.entries := by
    rw [he]
    simp
  have hu := List.any_eq_false.1 h (p, n) hm
  refine hu ?_
  rw [hx, Option.any_some, List.isSuffixOf_iff_suffix]
  exact ⟨46 :: x ++ ascii ".tftpff-", rfl⟩

end Disk
end Tftp
