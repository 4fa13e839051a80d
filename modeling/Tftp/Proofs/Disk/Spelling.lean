import Tftp.Proofs.Disk.ReadInside

/-!
How names may be spelled. What a name is resolved to depends on its normal form only, which is taken
of the root's path and the name behind it; and the path it is resolved to can be asked for again, by
a name in normal form.
-/

namespace Tftp
namespace Disk

/-! Normal forms -/

def Path.normal (text : Bytes) : Path := .extend ⟨[], false⟩ (Bytes.parts slash text)

structure Normal (text : Bytes) (names : List Name) (trailing : Bool) : Prop where
  ne_nil : names ≠ []
  legible : ∀ n ∈ names, Legible n
  parts : Bytes.parts slash text = names ++ if trailing then [[]] else []

namespace Path

variable {p q : Path} {n : Name} {names : List Name}

theorem extend_cons (p : Path) (n : Name) (names : List Name) :
    p.extend (n :: names) = (p.descend n).extend names := rfl

theorem extend_append (p : Path) (names more : List Name) :
    p.extend (names ++ more) = (p.extend names).extend more := List.foldl_append

theorem elements_mk (hne : names ≠ []) (trailing : Bool) :
    (Path.mk names trailing).elements = names ++ if trailing then [[]] else [] := by
  cases trailing <;> simp [Path.elements, hne]

theorem extend_congr (h : p.names = q.names) (hne : names ≠ []) :
    p.extend names = q.extend names := by
  obtain ⟨n, names, rfl⟩ := List.exists_cons_of_ne_nil hne
  have hdescend : p.descend n = q.descend n := by
    obtain ⟨_, _⟩ := p
    obtain ⟨_, _⟩ := q
    cases h
    rfl
  rw [extend_cons, extend_cons, hdescend]

theorem descend_proper (h : Proper n) : p.descend n = ⟨p.names ++ [n], false⟩ := by
  simp [descend, h.1, h.2.1, h.2.2]

theorem extend_proper (h : ∀ n ∈ names, Proper n) (hne : names ≠ []) :
    p.extend names = ⟨p.names ++ names, false⟩ := by
  induction names generalizing p with
  | nil => exact absurd rfl hne
  | cons n names ih =>
    rw [extend_cons, descend_proper (h n List.mem_cons_self)]
    by_cases hnil : names = []
    · subst hnil
      rfl
    · rw [ih (fun m hm => h m (List.mem_cons_of_mem n hm)) hnil, List.append_assoc]
      rfl

theorem extend_dropWhile (p : Path) (text : Bytes) :
    p.extend (Bytes.parts slash (text.dropWhile (· == slash))) =
      p.extend (Bytes.parts slash text) := by
  induction text generalizing p with
  | nil => rfl
  | cons b text ih =>
    rw [List.dropWhile_cons]
    split
    · rename_i hb
      have hslash : p.descend [] = { p with trailing := true } := if_pos (.inl rfl)
      rw [ih, Bytes.parts_cons, if_pos (by simpa using hb), extend_cons, hslash]
      exact extend_congr rfl (Bytes.parts_ne_nil slash text)
    · rfl

end Path

theorem join_text {root : Place} (hroot : ∀ n ∈ root, Legible n) (text : Bytes) :
    join root.text text = root.flatMap (slash :: ·) ++ slash :: text := by
  cases root using List.reverseRecOn with
  | nil => rfl
  | append_singleton init x =>
    have hx : Legible x := hroot x (by simp)
    have hplace : Place.text (init ++ [x]) = (init ++ [x]).flatMap (slash :: ·) := by
      cases init <;> rfl
    have hlast : (Place.text (init ++ [x])).getLast? ≠ some slash := by
      obtain ⟨b, y, hb⟩ := List.exists_cons_of_ne_nil hx.proper.1
      have hend : (Place.text (init ++ [x])).getLast? = x.getLast? := by
        rw [hplace]
        simp [List.getLast?_append, List.getLast?_cons, hb]
      rw [hend]
      exact fun h => hx.flat (List.mem_of_getLast? h)
    have hne : Place.text (init ++ [x]) ≠ [] := List.ne_nil_of_mem (Served.slash_mem_text _)
    rw [join, ← hplace, if_neg]
    simp [hne, hlast]

theorem parts_join {root : Place} (hroot : ∀ n ∈ root, Legible n) (text : Bytes) :
    Bytes.parts slash (join root.text text) = [] :: (root ++ Bytes.parts slash text) := by
  rw [join_text hroot, Bytes.parts_append]
  cases root with
  | nil => rfl
  | cons n root =>
    have hparts := parts_text (List.cons_ne_nil n root) fun m hm => (hroot m hm).flat
    exact congrArg (· ++ Bytes.parts slash text) hparts

namespace Normal

variable {text : Bytes} {names : List Name} {trailing : Bool}

theorem dropWhile_eq (h : Normal text names trailing) : text.dropWhile (· == slash) = text := by
  cases text with
  | nil => rfl
  | cons b text =>
    rw [List.dropWhile_cons, if_neg]
    intro hb
    have hparts := h.parts
    obtain ⟨n, names, rfl⟩ := List.exists_cons_of_ne_nil h.ne_nil
    rw [Bytes.parts_cons, if_pos (by simpa using hb), List.cons_append] at hparts
    exact (h.legible n List.mem_cons_self).proper.1 (List.cons.inj hparts).1.symm

theorem exists_text (hne : names ≠ []) (hnames : ∀ n ∈ names, Legible n) (trailing : Bool) :
    ∃ text, Normal text names trailing ∧ (Path.mk names trailing).text = slash :: text := by
  have helements := Path.elements_mk hne trailing
  have hflat : ∀ n ∈ (Path.mk names trailing).elements, slash ∉ n := by
    intro n hn
    rcases Path.mem_elements hn with rfl | hn
    · nofun
    · exact (hnames n hn).flat
  have hparts := parts_text (p := (Path.mk names trailing).elements)
    (by simp [helements, hne]) hflat
  have hhead := head?_text (Path.mk names trailing).elements
  obtain ⟨text, htext⟩ := List.head?_eq_some_iff.1 hhead
  refine ⟨text, ⟨hne, hnames, ?_⟩, htext⟩
  rw [htext, Bytes.parts_cons, if_pos rfl, helements] at hparts
  exact (List.cons.inj hparts).2

theorem extend (h : Normal text names trailing) (p : Path) :
    p.extend (Bytes.parts slash text) = ⟨p.names ++ names, trailing⟩ := by
  rw [h.parts, Path.extend_append,
    Path.extend_proper (fun n hn => (h.legible n hn).proper) h.ne_nil]
  cases trailing <;> rfl

end Normal

/-! The text of a path as far as the system sees it -/

theorem exists_first_nul {names : List Name} (h : ∃ n ∈ names, 0 ∈ n) : ∃ before n after,
    names = before ++ n :: after ∧ (∀ m ∈ before, 0 ∉ m) ∧ 0 ∈ n := by
  obtain ⟨n, hn⟩ := Option.isSome_iff_exists.1
    (List.find?_isSome (p := fun n : Name => decide (0 ∈ n)).2 (by simpa using h))
  obtain ⟨hmem, before, after, heq, hbefore⟩ := List.find?_eq_some_iff_append.1 hn
  exact ⟨before, n, after, heq, by simpa using hbefore, by simpa using hmem⟩

theorem untilNul_text_append {before after : List Name} {n : Name} (h : ∀ m ∈ before, 0 ∉ m)
    (hn : 0 ∈ n) : Bytes.untilNul (Place.text (before ++ n :: after)) =
      Place.text (before ++ [Bytes.untilNul n]) := by
  have htext : ∀ m : Name, ∀ more, Place.text (before ++ m :: more) =
      before.flatMap (slash :: ·) ++ slash :: m ++ more.flatMap (slash :: ·) := by
    intro m more
    cases before <;> simp [Place.text]
  have hplain : 0 ∉ before.flatMap (slash :: ·) ++ [slash] := by
    intro hb
    simp only [List.mem_append, List.mem_flatMap, List.mem_cons, List.not_mem_nil, or_false] at hb
    have hslash : (0 : UInt8) ≠ slash := by decide
    rcases hb with ⟨m, hm, hb | hb⟩ | hb
    · exact hslash hb
    · exact h m hm hb
    · exact hslash hb
  have hfirst : before.flatMap (slash :: ·) ++ slash :: n =
      (before.flatMap (slash :: ·) ++ [slash]) ++ n := by simp
  rw [htext, htext, Bytes.untilNul_append_of_mem (by simp [hn]), hfirst,
    Bytes.untilNul_append hplain]
  simp

/-! What is resolved -/

namespace Served

variable {s : Served} {name other : Bytes} {p : Path}

def onPaper (s : Served) (name : Bytes) : Path := .normal (join s.root.text name)

def outcome (s : Served) (name : Bytes) : Except ErrorCode Path :=
  (s.resolve name).mapError Error.code

theorem onPaper_eq (hroot : ∀ n ∈ s.root, Legible n) (name : Bytes) : s.onPaper name =
    Path.extend ⟨s.root, false⟩ (Bytes.parts slash (name.dropWhile (· == slash))) := by
  have hslash : Path.descend ⟨[], false⟩ [] = ⟨[], true⟩ := if_pos (.inl rfl)
  have hnames : ((Path.mk [] true).extend s.root).names = s.root := by
    by_cases hne : s.root = []
    · rw [hne]
      rfl
    · rw [Path.extend_proper (fun n hn => (hroot n hn).proper) hne]
      rfl
  rw [onPaper, Path.normal, parts_join hroot, Path.extend_cons, hslash, Path.extend_append,
    Path.extend_dropWhile]
  exact Path.extend_congr hnames (Bytes.parts_ne_nil slash name)

theorem Resolved.prefix_names (h : s.Resolved name p) : s.root <+: p.names := by
  obtain ⟨rest, hne, heq⟩ := Path.below_iff.1 h.below
  rcases p.elements_cases with helements | helements <;> rw [helements] at heq
  · exact ⟨rest, heq.symm⟩
  · cases rest using List.reverseRecOn with
    | nil => exact absurd rfl hne
    | append_singleton rest last =>
      rw [← List.append_assoc] at heq
      exact ⟨rest, (List.append_inj' heq rfl).1.symm⟩

theorem Resolved.eq_root (h : s.Resolved name p) (hnames : p.names = s.root) :
    p = ⟨s.root, true⟩ := by
  obtain ⟨rest, hne, heq⟩ := Path.below_iff.1 h.below
  obtain ⟨names, trailing⟩ := p
  cases hnames
  cases trailing with
  | true => rfl
  | false => exact absurd (List.append_right_eq_self.1 heq.symm) hne

section

variable (lawful : s.tree.Lawful) (root : s.tree.node? s.root = some .dir)

include lawful root

theorem legible_root : ∀ n ∈ s.root, Legible n := lawful.legible_of (by simp [root])

theorem Resolved.ne_root (h : s.Resolved name p) : p ≠ ⟨s.root, true⟩ := by
  rintro rfl
  -- the name "." has this path as well, and no NUL is in it
  have hdot : s.Resolved here ⟨s.root, true⟩ := ⟨rfl, h.below, h.real⟩
  obtain ⟨rest, hne, heq⟩ := hdot.names_eq (by decide) lawful root
  exact hne (List.append_right_eq_self.1 heq.symm)

theorem resolve_eq_ok_iff : s.resolve name = .ok p ↔ s.Resolved name p := by
  refine ⟨resolved_of_resolve, fun h => ?_⟩
  have hname : (name.dropWhile (· == slash)).isEmpty = false := by
    rw [Bool.eq_false_iff, Ne, List.isEmpty_iff]
    intro hnil
    have hpath := h.path
    rw [hnil] at hpath
    exact h.ne_root lawful root hpath
  obtain ⟨real, hreal, hbelow⟩ := h.real
  unfold resolve
  simp [hname, ← h.path, h.below, hreal, hbelow]

theorem resolved_congr (h : s.onPaper name = s.onPaper other) :
    s.Resolved name p ↔ s.Resolved other p := by
  have hroot := legible_root lawful root
  rw [onPaper_eq hroot, onPaper_eq hroot] at h
  exact ⟨fun hp => ⟨hp.path.trans h, hp.below, hp.real⟩,
    fun hp => ⟨hp.path.trans h.symm, hp.below, hp.real⟩⟩

theorem outcome_eq_ok_iff : s.outcome name = .ok p ↔ s.Resolved name p := by
  rw [← resolve_eq_ok_iff lawful root, outcome]
  cases s.resolve name <;> simp [Except.mapError]

omit lawful root in
theorem outcome_cases (s : Served) (name : Bytes) :
    (∃ p, s.outcome name = .ok p) ∨ s.outcome name = .error .accessViolation := by
  unfold outcome
  cases h : s.resolve name with
  | ok p => exact .inl ⟨p, rfl⟩
  | error e => exact .inr (congrArg Except.error (code_of_resolve h))

theorem outcome_congr (h : s.onPaper name = s.onPaper other) :
    s.outcome name = s.outcome other := by
  rcases s.outcome_cases name with ⟨p, hp⟩ | he
  · rw [hp]
    have hother := (resolved_congr lawful root h).1 ((outcome_eq_ok_iff lawful root).1 hp)
    exact ((outcome_eq_ok_iff lawful root).2 hother).symm
  · rcases s.outcome_cases other with ⟨p, hp⟩ | he'
    · have hname := (resolved_congr lawful root h).2 ((outcome_eq_ok_iff lawful root).1 hp)
      rw [(outcome_eq_ok_iff lawful root).2 hname] at he
      cases he
    · rw [he, he']

theorem onPaper_slashes (count : Nat) (name : Bytes) :
    s.onPaper (List.replicate count slash ++ name) = s.onPaper name := by
  have hroot := legible_root lawful root
  rw [onPaper_eq hroot, onPaper_eq hroot, List.dropWhile_append_of_pos]
  intro b hb
  simpa using List.eq_of_mem_replicate hb

/-- What a name comes to is the same with slashes in front of it, and it is the same for all names
with one normal form. The path it is resolved to is the root's with a relative one in normal form
behind it, and this one is resolved to the same path. -/
theorem resolve_canonical (h0 : 0 ∉ name) :
    (∀ count, s.outcome (List.replicate count slash ++ name) = s.outcome name) ∧
    (∀ other, s.onPaper other = s.onPaper name → s.outcome other = s.outcome name) ∧
    ∀ p, s.outcome name = .ok p → ∃ rest relative, Normal relative rest p.trailing ∧
      p.names = s.root ++ rest ∧ p.text = join s.root.text relative ∧
      s.outcome relative = .ok p := by
  refine ⟨fun count => outcome_congr lawful root (onPaper_slashes lawful root count name),
    fun other => outcome_congr lawful root, fun p hp => ?_⟩
  have h := (outcome_eq_ok_iff lawful root).1 hp
  have hroot := legible_root lawful root
  obtain ⟨rest, hne, hnames⟩ := h.names_eq h0 lawful root
  have hlegible : ∀ n ∈ rest, Legible n := fun n hn =>
    h.legible h0 hroot n (hnames ▸ List.mem_append_right s.root hn)
  obtain ⟨relative, normal, htext⟩ := Normal.exists_text hne hlegible p.trailing
  have hextend : (Path.mk s.root false).extend (Bytes.parts slash relative) = p := by
    rw [normal.extend, ← hnames]
  refine ⟨rest, relative, normal, hnames, ?_, ?_⟩
  · obtain ⟨names, trailing⟩ := p
    dsimp only at hnames htext
    subst hnames
    obtain ⟨n, rest, rfl⟩ := List.exists_cons_of_ne_nil hne
    rw [join_text hroot, ← htext, Path.text, Path.text, Path.elements_mk hne,
      Path.elements_mk (by simp), List.append_assoc]
    cases hr : s.root with
    | nil => rfl
    | cons m root => rw [Place.text_append (List.cons_ne_nil m root)]; rfl
  · refine (outcome_eq_ok_iff lawful root).2 ⟨?_, h.below, h.real⟩
    rw [normal.dropWhile_eq, hextend]

end

theorem resolve_canonical_detour :
    linkedServed.tree.Lawful ∧ linkedServed.tree.node? linkedServed.root = some .dir ∧
      0 ∉ ascii "//sub/..///./sub/link/" ∧
      let p : Path := ⟨[ascii "root", ascii "sub", ascii "link"], true⟩
      linkedServed.outcome (ascii "//sub/..///./sub/link/") = .ok p ∧
      linkedServed.outcome (ascii "sub/link/.") = .ok p ∧
      ∃ rest relative, Normal relative rest p.trailing ∧ p.names = linkedServed.root ++ rest ∧
        p.text = join (Place.text linkedServed.root) relative ∧
        linkedServed.outcome relative = .ok p := by
  have h0 : 0 ∉ ascii "//sub/..///./sub/link/" := by decide
  have h := resolve_canonical (s := linkedServed) lawful_linkedTree rfl h0
  have hok : linkedServed.outcome (ascii "//sub/..///./sub/link/") =
      .ok ⟨[ascii "root", ascii "sub", ascii "link"], true⟩ := by
    decide +kernel
  have hother : linkedServed.onPaper (ascii "sub/link/.") =
      linkedServed.onPaper (ascii "//sub/..///./sub/link/") := by
    decide +kernel
  exact ⟨lawful_linkedTree, rfl, h0, hok, (h.2.1 _ hother).trans hok, h.2.2 _ hok⟩

/-! Names that are not resolved -/

section

variable (hroot : ∀ n ∈ s.root, Legible n)

include hroot

theorem Resolved.parts_text_eq (h : s.Resolved name p) :
    Bytes.parts slash p.text = [] :: p.elements := by
  refine parts_text h.names_ne_nil fun n hn => ?_
  rcases Path.mem_elements hn with rfl | hn
  · nofun
  · rw [h.path] at hn
    rcases mem_names_extend hn with hn | ⟨_, hn⟩
    · exact (hroot n hn).flat
    · exact Bytes.not_mem_of_mem_parts hn

theorem Resolved.untilNul_text (h : s.Resolved name p) (hnul : ∃ n ∈ p.elements, 0 ∈ n) :
    ∃ before n, before ++ [n] <+: p.elements ∧ s.root <+: before ∧ 0 ∈ n ∧
      Bytes.untilNul p.text = Place.text (before ++ [Bytes.untilNul n]) := by
  obtain ⟨before, n, after, heq, hplain, hn⟩ := exists_first_nul hnul
  obtain ⟨rest, _, hbelow⟩ := Path.below_iff.1 h.below
  have hbefore : before ++ [n] <+: p.elements := ⟨after, by rw [heq]; simp⟩
  have hpath : s.root <+: p.elements := ⟨rest, hbelow.symm⟩
  refine ⟨before, n, hbefore, ?_, hn, ?_⟩
  · rcases List.prefix_or_prefix_of_prefix hpath hbefore with hpre | hpre
    · rcases List.prefix_concat_iff.1 hpre with hlast | hpre
      · exact absurd hn (hroot n (by simp [hlast])).plain
      · exact hpre
    · exact absurd hn (hroot n (hpre.subset (by simp))).plain
  · rw [Path.text, heq, untilNul_text_append hplain hn]

/-- A name is refused that is empty or made of slashes, or whose normal form is not below the root;
or is the root, as long as there is a directory. No name is refused for a NUL in it: the system then
looks up another path than the one that was checked, as the path it sees ends at the first NUL. -/
theorem resolve_refuses (lawful : s.tree.Lawful) (name : Bytes) :
    (∀ e, s.resolve name = .error e → e.code = .accessViolation) ∧
    ((∀ b ∈ name, b = slash) ∨ ¬ s.root <+: (s.onPaper name).names ∨
      (s.onPaper name).names = s.root ∧ s.tree.node? s.root = some .dir →
        ∃ e, s.resolve name = .error e) ∧
    ∀ p, s.resolve name = .ok p →
      p = s.onPaper name ∧ Bytes.parts slash p.text = [] :: p.elements ∧
      (0 ∉ name → ∀ n ∈ p.elements, 0 ∉ n) ∧
      ((∀ n ∈ p.elements, 0 ∉ n) → Bytes.untilNul p.text = p.text) ∧
      ((∃ n ∈ p.elements, 0 ∈ n) → ∃ before n, before ++ [n] <+: p.elements ∧ s.root <+: before ∧
        0 ∈ n ∧ Bytes.untilNul p.text = Place.text (before ++ [Bytes.untilNul n])) := by
  refine ⟨fun e => code_of_resolve, fun hname => ?_, fun p hp => ?_⟩
  · cases hp : s.resolve name with
    | error e => exact ⟨e, rfl⟩
    | ok p =>
      have h := resolved_of_resolve hp
      rw [onPaper_eq hroot, ← h.path] at hname
      rcases hname with hslash | hout | ⟨hself, root⟩
      · have hempty : name.dropWhile (· == slash) = [] :=
          List.dropWhile_eq_nil_iff.2 fun b hb => by simpa using hslash b hb
        simp [resolve, hempty] at hp
      · exact absurd h.prefix_names hout
      · exact absurd (h.eq_root hself) (h.ne_root lawful root)
  · have h := resolved_of_resolve hp
    refine ⟨onPaper_eq hroot name ▸ h.path, h.parts_text_eq hroot,
      fun h0 n hn => (h.flat_elements h0 hroot n hn).2.1, fun hplain => ?_, h.untilNul_text hroot⟩
    refine Bytes.untilNul_eq fun hb => ?_
    rcases mem_text hb with hb | ⟨n, hn, hb⟩
    · revert hb
      decide
    · exact hplain n hn hb

end

def cutName : Bytes := ascii "sub/../file" ++ 0 :: ascii "/other"

def cutPath : Path := ⟨[ascii "root", ascii "file" ++ [0], ascii "other"], false⟩

theorem resolve_cutName : linkedServed.resolve cutName = .ok cutPath := by decide +kernel

theorem resolve_refuses_dots_and_cuts :
    (∀ n ∈ linkedServed.root, Legible n) ∧ linkedServed.tree.Lawful ∧
      (∃ e, linkedServed.resolve (ascii "/sub/..") = .error e) ∧
      (∃ e, linkedServed.resolve (ascii "../roots/file") = .error e) ∧
      linkedServed.resolve cutName = .ok cutPath ∧
      ∃ before n, before ++ [n] <+: cutPath.elements ∧ linkedServed.root <+: before ∧ 0 ∈ n ∧
        Bytes.untilNul cutPath.text = Place.text (before ++ [Bytes.untilNul n]) := by
  have hroot : ∀ n ∈ linkedServed.root, Legible n := legible_root lawful_linkedTree rfl
  have h := resolve_refuses hroot lawful_linkedTree
  refine ⟨hroot, lawful_linkedTree, (h _).2.1 (.inr (.inr ⟨by decide +kernel, rfl⟩)),
    (h _).2.1 (.inr (.inl (by decide +kernel))), resolve_cutName, ?_⟩
  exact ((h cutName).2.2 _ resolve_cutName).2.2.2.2 ⟨ascii "file" ++ [0], by decide, by decide⟩

/-- A NUL in a name is no reason to refuse it. -/
theorem not_refused_for_nul : ¬ ∀ (s : Served) (name : Bytes), s.tree.Lawful →
    s.tree.node? s.root = some .dir → 0 ∈ name → ∃ e, s.resolve name = .error e := by
  intro h
  obtain ⟨e, he⟩ := h linkedServed cutName lawful_linkedTree rfl (by decide)
  cases resolve_cutName.symm.trans he

end Served
end Disk
end Tftp
