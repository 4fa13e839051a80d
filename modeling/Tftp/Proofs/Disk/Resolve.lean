import Tftp.Proofs.Disk.Lawful
import Tftp.Proofs.Disk.Opening
import Tftp.Proofs.Disk.Reach

namespace Tftp
namespace Disk

theorem parts_text {p : Place} (hne : p ≠ []) (flat : ∀ n ∈ p, slash ∉ n) :
    Bytes.parts slash (Place.text p) = [] :: p := by
  induction p with
  | nil => exact absurd rfl hne
  | cons n p ih =>
    have hn := Bytes.parts_of_not_mem (flat n List.mem_cons_self)
    cases p with
    | nil =>
      simp only [Place.text, List.flatMap_cons, List.flatMap_nil, List.append_nil,
        Bytes.parts_cons, if_true, hn]
    | cons m p =>
      have ih := ih (by simp) fun n hm => flat n (List.mem_cons_of_mem _ hm)
      have htext : Place.text (n :: m :: p) =
          slash :: (n ++ slash :: (m ++ p.flatMap (slash :: ·))) := by
        simp [Place.text]
      have hrest : Place.text (m :: p) = slash :: (m ++ p.flatMap (slash :: ·)) := by
        simp [Place.text]
      rw [hrest, Bytes.parts_cons, if_pos rfl] at ih
      rw [htext, Bytes.parts_cons, if_pos rfl, Bytes.parts_append, hn, (List.cons.inj ih).2]
      rfl

theorem Place.text_append {p : Place} (h : p ≠ []) (q : Place) :
    (p ++ q).text = p.text ++ q.flatMap (slash :: ·) := by
  obtain ⟨n, p, rfl⟩ := List.exists_cons_of_ne_nil h
  simp [Place.text]

theorem Place.length_text (p q : Place) : p.text.length ≤ (p ++ q).text.length := by
  cases p with
  | nil =>
    cases q with
    | nil => rfl
    | cons n q => simp [Place.text]
  | cons n p =>
    rw [text_append (by simp), List.length_append]
    exact Nat.le_add_right _ _

theorem Tree.LastName.of_eq_name {n m : Name} {a b : Bool}
    (h : Tree.LastName.of n a = .name m b) : n = m ∧ a = b := by
  unfold of at h
  split at h
  · cases h
  · split at h
    · cases h
    · cases h
      exact ⟨rfl, rfl⟩

theorem head?_text (p : Place) : (Place.text p).head? = some slash := by
  cases p <;> rfl

theorem Tree.find_text {t : Tree} {names : List Name} (hne : names ≠ [])
    (flat : ∀ n ∈ names, slash ∉ n ∧ 0 ∉ n) (hl : (Place.text names).length < maxPath) :
    t.find true (Place.text names) = t.walk true maxLinks [] names := by
  have hplain : 0 ∉ Place.text names := by
    intro hb
    rcases Served.mem_text hb with hb | ⟨n, hn, hb⟩
    · revert hb
      decide
    · exact (flat n hn).2 hb
  have htext : Place.text names ≠ [] := List.ne_nil_of_mem (Served.slash_mem_text names)
  have hroot : t.turn [] [] = .ok (.inl []) := Tree.turn_eq_ok_iff.2 ⟨rfl, .stay (.inl rfl)⟩
  have ho : t.origin (Place.text names) = [] := if_pos (head?_text names)
  rw [Tree.find_eq hplain htext hl, ho, parts_text hne fun n hn => (flat n hn).1, Tree.walk_cons,
    hroot]

theorem Tree.Lawful.reaches_dir {t : Tree} (h : t.Lawful) {q : Place}
    (hq : t.node? q = some .dir) : t.Reaches [] q q := by
  induction q using List.reverseRecOn with
  | nil => exact .done []
  | append_singleton q n ih =>
    have hn : t.node? (q ++ [n]) ≠ none := by simp [hq]
    have hdir := h.parents q n hn
    have hlink : ∀ target, t.node? (q ++ [n]) ≠ some (.link target) := by simp [hq]
    exact (ih hdir).append (.down hdir (h.legible q n hn).proper hlink (.done _))

namespace Path

variable {p : Path} {root : Place} {n : Name}

theorem below_iff : p.below root ↔ ∃ rest, rest ≠ [] ∧ p.elements = root ++ rest := by
  rw [below, Bool.and_eq_true, List.isPrefixOf_iff_prefix, decide_eq_true_eq]
  constructor
  · rintro ⟨⟨rest, hrest⟩, hl⟩
    refine ⟨rest, ?_, hrest.symm⟩
    rintro rfl
    simp [← hrest] at hl
  · rintro ⟨rest, hne, heq⟩
    refine ⟨⟨rest, heq.symm⟩, ?_⟩
    have := List.length_pos_iff.2 hne
    rw [heq, List.length_append]
    omega

theorem elements_cases (p : Path) : p.elements = p.names ∨ p.elements = p.names ++ [[]] := by
  unfold elements
  split
  · exact .inr rfl
  · exact .inl rfl

theorem mem_elements (hn : n ∈ p.elements) : n = [] ∨ n ∈ p.names := by
  rcases p.elements_cases with heq | heq <;> rw [heq] at hn
  · exact .inr hn
  · rcases List.mem_append.1 hn with hn | hn
    · exact .inr hn
    · exact .inl (List.mem_singleton.1 hn)

@[simp] theorem elements_plain (q : Place) : (Path.mk q false).elements = q := rfl

end Path

namespace Served

/-- What a name is resolved to: its path is below the root on paper and behind its links. -/
structure Resolved (s : Served) (name : Bytes) (p : Path) : Prop where
  path : p = Path.extend ⟨s.root, false⟩ (Bytes.parts slash (name.dropWhile (· == slash)))
  below : p.below s.root
  real : ∃ real, s.tree.weaklyCanonical p = .ok real ∧ real.below s.root

theorem resolved_of_resolve {s : Served} {name : Bytes} {p : Path} (h : s.resolve name = .ok p) :
    s.Resolved name p := by
  unfold resolve at h
  dsimp only at h
  split at h
  · cases h
  · split at h
    · cases h
    · rename_i hb
      split at h
      · cases h
      · rename_i real hreal
        split at h
        · rename_i hr
          cases h
          exact ⟨rfl, by simpa using hb, real, hreal, hr⟩
        · cases h

theorem code_of_resolve {s : Served} {name : Bytes} {e : Error} (h : s.resolve name = .error e) :
    e.code = .accessViolation := by
  unfold resolve at h
  dsimp only at h
  split at h
  · cases h
    rfl
  · split at h
    · cases h
      rfl
    · split at h
      · cases h
        rfl
      · split at h
        · cases h
        · cases h
          rfl

namespace Resolved

variable {s : Served} {name : Bytes} {p : Path} (h : s.Resolved name p)

include h

theorem names_ne_nil : p.elements ≠ [] := by
  obtain ⟨rest, hne, heq⟩ := Path.below_iff.1 h.below
  simp [heq, hne]

theorem last_mem {init : List Name} {x : Name} (hp : p.elements = init ++ [x]) (hx : x ≠ []) :
    x ∈ Bytes.parts slash name := by
  obtain ⟨rest, hne, hbelow⟩ := Path.below_iff.1 h.below
  obtain ⟨kept, pushed, hnames, hkept, hpushed⟩ := names_extend ⟨s.root, false⟩
    (Bytes.parts slash (name.dropWhile (· == slash)))
  rw [← h.path] at hnames
  have helements : p.elements = p.names := by
    rcases p.elements_cases with heq | heq
    · exact heq
    · rw [hp] at heq
      exact absurd (List.singleton_inj.1 (List.append_inj' heq rfl).2) hx
  rw [hbelow] at hp
  rw [helements, hnames] at hbelow
  cases hpushed' : pushed using List.reverseRecOn with
  | nil =>
    -- the root's own names are fewer than the path has
    have hl := congrArg List.length hbelow
    have hpos := List.length_pos_iff.2 hne
    have hle : kept.length ≤ s.root.length := hkept.length_le
    simp only [hpushed', List.append_nil, List.length_append] at hl
    omega
  | append_singleton before y =>
    rw [← hbelow, hpushed', ← List.append_assoc] at hp
    have hy : y = x := List.singleton_inj.1 (List.append_inj' hp rfl).2
    have hmem : y ∈ pushed := by simp [hpushed']
    exact hy ▸ Bytes.mem_parts_of_dropWhile (hpushed y hmem).2

section

variable (h0 : 0 ∉ name) (hroot : ∀ n ∈ s.root, Legible n)

include h0 hroot

theorem legible : ∀ n ∈ p.names, Legible n := by
  intro n hn
  rw [h.path] at hn
  rcases mem_names_extend hn with hn | ⟨hp, hn⟩
  · exact hroot n hn
  · refine ⟨hp, Bytes.not_mem_of_mem_parts hn, fun hz => h0 ?_⟩
    exact (List.dropWhile_sublist _).subset (Bytes.mem_of_mem_parts hn hz)

theorem flat_elements : ∀ n ∈ p.elements, slash ∉ n ∧ 0 ∉ n ∧ n ≠ here ∧ n ≠ above := by
  intro n hn
  rcases Path.mem_elements hn with rfl | hn
  · exact ⟨nofun, nofun, nofun, nofun⟩
  · have hl := h.legible h0 hroot n hn
    exact ⟨hl.flat, hl.plain, hl.proper.2.1, hl.proper.2.2⟩

theorem plain_text : 0 ∉ p.text := by
  intro hb
  rcases mem_text hb with hb | ⟨n, hn, hb⟩
  · revert hb
    decide
  · exact (h.flat_elements h0 hroot n hn).2.1 hb

theorem find : s.tree.find true p.text =
    if p.text.length < maxPath then s.tree.walk true maxLinks [] p.elements
    else .error .nameTooLong := by
  split
  · exact Tree.find_text h.names_ne_nil (fun n hn =>
      have hf := h.flat_elements h0 hroot n hn
      ⟨hf.1, hf.2.1⟩) ‹_›
  · rename_i hl
    exact Tree.find_long (h.plain_text h0 hroot) (Nat.le_of_not_lt hl)

theorem last {dir : Place} {x : Name} (he : s.tree.findEntry p.text = .ok (dir, .name x false)) :
    ∃ init, p.elements = init ++ [x] ∧ s.tree.Leads maxLinks [] init dir := by
  obtain ⟨_, _, hm⟩ := Tree.findEntry_eq_ok_iff.1 he
  rw [Bytes.untilNul_eq (h.plain_text h0 hroot)] at hm
  have hparts : Bytes.parts slash p.text = [] :: p.elements :=
    parts_text h.names_ne_nil fun n hn => (h.flat_elements h0 hroot n hn).1
  have ho : s.tree.origin p.text = [] := if_pos (head?_text p.elements)
  rw [hparts, ho] at hm
  cases hp : p.elements using List.reverseRecOn with
  | nil => exact absurd hp h.names_ne_nil
  | append_singleton init z =>
    by_cases hz : z = []
    · -- a slash at the end of the text would have been noted
      have hlast : p.text.getLast? = some slash := by
        by_cases hi : init = []
        · rw [Path.text, hp, hz, hi]
          rfl
        · rw [Path.text, hp, hz, Place.text_append hi]
          simp
      rw [hlast] at hm
      split at hm
      · cases hm.2
      · cases (Tree.LastName.of_eq_name hm.2.symm).2
    · have hne : z.isEmpty = false := by simpa using hz
      have hdrop : (([] : Name) :: p.elements).reverse.dropWhile (·.isEmpty) =
          z :: (init.reverse ++ [[]]) := by
        simp [hp, hne]
      rw [hdrop] at hm
      obtain ⟨hleads, hl⟩ := hm
      have hturn : s.tree.turn [] [] = .ok (.inl []) :=
        Tree.turn_eq_ok_iff.2 ⟨rfl, .stay (.inl rfl)⟩
      rw [Tree.Leads, List.reverse_append, List.reverse_reverse, List.reverse_singleton,
        List.singleton_append, Tree.walk_cons, hturn] at hleads
      exact ⟨init, by rw [(Tree.LastName.of_eq_name hl.symm).1], hleads⟩

end

theorem status_known (e : Errno) : s.tree.status p.text ≠ .unknown e := by
  intro he
  obtain ⟨real, hreal, _⟩ := h.real
  simp [Tree.weaklyCanonical, he] at hreal

theorem below_of_found {q : Place} {n : Node} (hs : s.tree.status p.text = .found q n) :
    s.root <+: q ∧ q ≠ s.root := by
  obtain ⟨real, hreal, hb⟩ := h.real
  simp only [Tree.weaklyCanonical, hs, Tree.canonical] at hreal
  split at hreal
  · cases hreal
  · cases hreal
    obtain ⟨rest, hne, heq⟩ := Path.below_iff.1 hb
    rw [Path.elements_plain] at heq
    exact ⟨⟨rest, heq.symm⟩, by simp [heq, hne]⟩

theorem found_of_reaches (h0 : 0 ∉ name) (hroot : ∀ n ∈ s.root, Legible n) {q : Place} {n : Node}
    (hr : s.tree.Reaches [] p.elements q) (hn : s.tree.node? q = some n) :
    s.tree.status p.text = .found q n := by
  have hfind := h.find h0 hroot
  have hknown : s.tree.find true p.text ≠ .error .loop ∧
      s.tree.find true p.text ≠ .error .nameTooLong := by
    constructor <;> intro he <;> exact h.status_known _ (by rw [Tree.status, he])
  refine Tree.status_eq_found_iff.2 ⟨?_, hn⟩
  split at hfind
  · rcases hr.walk maxLinks with hw | hw | hw <;> rw [hw] at hfind
    · exact hfind
    · exact absurd hfind hknown.1
    · exact absurd hfind hknown.2
  · exact absurd hfind hknown.2

theorem names_eq (h0 : 0 ∉ name) (lawful : s.tree.Lawful) (hroot : s.tree.node? s.root = some .dir) :
    ∃ rest, rest ≠ [] ∧ p.names = s.root ++ rest := by
  obtain ⟨rest, hne, heq⟩ := Path.below_iff.1 h.below
  rcases p.elements_cases with helements | helements <;> rw [helements] at heq
  · exact ⟨rest, hne, heq⟩
  · cases rest using List.reverseRecOn with
    | nil => exact absurd rfl hne
    | append_singleton rest last =>
      rw [← List.append_assoc] at heq
      obtain ⟨hnames, _⟩ := List.append_inj' heq rfl
      refine ⟨rest, ?_, hnames⟩
      -- a slash behind the root alone would lead to the root itself
      rintro rfl
      rw [List.append_nil] at hnames
      have hself : s.tree.Reaches [] p.elements s.root := by
        rw [helements, hnames]
        exact (lawful.reaches_dir hroot).append (.stay hroot (.inl rfl) (.done _))
      have hlegible := lawful.legible_of (p := s.root) (by simp [hroot])
      exact (h.below_of_found (h.found_of_reaches h0 hlegible hself hroot)).2 rfl

theorem reaches_of_found (h0 : 0 ∉ name) (hroot : ∀ n ∈ s.root, Legible n) {q : Place} {n : Node}
    (hs : s.tree.status p.text = .found q n) : s.tree.Reaches [] p.elements q := by
  have hf := (Tree.status_eq_found_iff.1 hs).1
  rw [h.find h0 hroot] at hf
  split at hf
  · exact Tree.reaches_of_walk hf
  · cases hf

end Resolved

end Served
end Disk
end Tftp
