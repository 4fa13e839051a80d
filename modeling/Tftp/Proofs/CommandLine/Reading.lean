import Mathlib.Data.List.Nodup
import Mathlib.Data.List.Pairwise
import Mathlib.Data.List.TakeWhile
import Mathlib.Tactic.Common
import Tftp.CommandLine.Scan

/-!
How a command line reads, said without the scanner: which arguments make which options, which are
passed over, and what an argument is like that cannot be used. Every command line reads in one way,
and this is what the scanner finds.
-/

namespace Tftp
namespace CommandLine

variable {φ : Type}

structure Distinct (specs : List (Spec φ)) : Prop where
  longs : (specs.map (·.long)).Nodup
  letters : specs.Pairwise fun r s => r.letter = s.letter → r.letter = none

inductive Means (specs : List (Spec φ)) (name : Bytes) (s : Spec φ) : Prop
  | whole (mem : s ∈ specs) (long : s.long = name)
  | beginning (mem : s ∈ specs) (none : ∀ r ∈ specs, r.long ≠ name) (long : name <+: s.long)
      (only : ∀ r ∈ specs, name <+: r.long → r = s)

/-- Letters behind a dash: options that take no value, and perhaps one more option at the end, or a
letter that is none. -/
inductive Cluster (specs : List (Spec φ)) : Bytes → List φ → ClusterEnd φ → Prop
  | complete : Cluster specs [] [] .complete
  | switch {s : Spec φ} {c : UInt8} {cs : Bytes} {flags : List φ} {e : ClusterEnd φ} (mem : s ∈ specs)
      (letter : s.letter = some c) (plain : s.takesValue = false) (more : Cluster specs cs flags e) :
    Cluster specs (c :: cs) (s.flag :: flags) e
  | value {s : Spec φ} {c : UInt8} {value : Bytes} (mem : s ∈ specs) (letter : s.letter = some c)
      (takes : s.takesValue = true) (attached : value ≠ []) :
    Cluster specs (c :: value) [] (.value s.flag value)
  | wantsValue {s : Spec φ} {c : UInt8} (mem : s ∈ specs) (letter : s.letter = some c)
      (takes : s.takesValue = true) : Cluster specs [c] [] (.wantsValue s.flag)
  | unknown {c : UInt8} {cs : Bytes} (none : ∀ s ∈ specs, s.letter ≠ some c) :
    Cluster specs (c :: cs) [] (.unknown cs.isEmpty)

inductive Wanting (specs : List (Spec φ)) : Bytes → List φ → φ → Prop
  | long {name : Bytes} {s : Spec φ} (ne_nil : name ≠ []) (bare : 61 ∉ name)
      (means : Means specs name s) (takes : s.takesValue = true) :
    Wanting specs (45 :: 45 :: name) [] s.flag
  | cluster {c : UInt8} {cs : Bytes} {flags : List φ} {f : φ} (single : c ≠ 45)
      (letters : Cluster specs (c :: cs) flags (.wantsValue f)) :
    Wanting specs (45 :: c :: cs) flags f

inductive Unknown (specs : List (Spec φ)) : Bytes → List φ → Prop
  | long {name : Bytes} (ne_nil : name ≠ []) (bare : 61 ∉ name) (none : ∀ s, ¬ Means specs name s) :
    Unknown specs (45 :: 45 :: name) []
  | attached {name value : Bytes} (bare : 61 ∉ name) (none : ∀ s, ¬ Means specs name s) :
    Unknown specs (45 :: 45 :: (name ++ 61 :: value)) []
  | surplus {name value : Bytes} {s : Spec φ} (bare : 61 ∉ name) (means : Means specs name s)
      (plain : s.takesValue = false) : Unknown specs (45 :: 45 :: (name ++ 61 :: value)) []
  | cluster {c : UInt8} {cs : Bytes} {flags : List φ} {isLast : Bool} (single : c ≠ 45)
      (letters : Cluster specs (c :: cs) flags (.unknown isLast)) :
    Unknown specs (45 :: c :: cs) flags

def switches (flags : List φ) : List (φ × Bytes) := flags.map (·, [])

inductive Word (specs : List (Spec φ)) : List Bytes → List (φ × Bytes) → Prop
  | long {name : Bytes} {s : Spec φ} (ne_nil : name ≠ []) (bare : 61 ∉ name)
      (means : Means specs name s) (plain : s.takesValue = false) :
    Word specs [45 :: 45 :: name] [(s.flag, [])]
  | attached {name value : Bytes} {s : Spec φ} (bare : 61 ∉ name) (means : Means specs name s)
      (takes : s.takesValue = true) :
    Word specs [45 :: 45 :: (name ++ 61 :: value)] [(s.flag, value)]
  | cluster {c : UInt8} {cs : Bytes} {flags : List φ} (single : c ≠ 45)
      (letters : Cluster specs (c :: cs) flags .complete) :
    Word specs [45 :: c :: cs] (switches flags)
  | clusterValue {c : UInt8} {cs value : Bytes} {flags : List φ} {f : φ} (single : c ≠ 45)
      (letters : Cluster specs (c :: cs) flags (.value f value)) :
    Word specs [45 :: c :: cs] (switches flags ++ [(f, value)])
  | apart {arg value : Bytes} {flags : List φ} {f : φ} (wanting : Wanting specs arg flags f) :
    Word specs [arg, value] (switches flags ++ [(f, value)])

def Positional (arg : Bytes) : Prop := ∀ c cs, arg ≠ 45 :: c :: cs

/-- The beginning of a command line: the options in it, the arguments that make them, and those that
were passed over. -/
inductive Words (specs : List (Spec φ)) :
    List Bytes → List (φ × Bytes) → List Bytes → List Bytes → Prop
  | nil : Words specs [] [] [] []
  | pass {arg : Bytes} {front read passed : List Bytes} {options : List (φ × Bytes)}
      (positional : Positional arg) (more : Words specs front options read passed) :
    Words specs (arg :: front) options read (arg :: passed)
  | read {args front read passed : List Bytes} {options options' : List (φ × Bytes)}
      (word : Word specs args options) (more : Words specs front options' read passed) :
    Words specs (args ++ front) (options ++ options') (args ++ read) passed

def Buried (specs : List (Spec φ)) (arg : Bytes) : Prop :=
  ∃ c cs flags, arg = 45 :: c :: cs ∧ c ≠ 45 ∧ Cluster specs (c :: cs) flags (.unknown false)

/-- The end of a command line, when `before` is the argument that was read last. -/
inductive Finish (specs : List (Spec φ)) (before : Bytes) (passed : List Bytes) :
    List Bytes → Scan φ → Prop
  | all : Finish specs before passed [] ⟨[], .complete passed⟩
  | separator {rest : List Bytes} :
    Finish specs before passed ([45, 45] :: rest) ⟨[], .complete (passed ++ rest)⟩
  | missing {arg : Bytes} {flags : List φ} {f : φ} (wanting : Wanting specs arg flags f) :
    Finish specs before passed [arg] ⟨switches flags, .missingValue arg⟩
  | unknown {arg : Bytes} {rest : List Bytes} {flags : List φ} (unknown : Unknown specs arg flags)
      (last : ¬ Buried specs arg) :
    Finish specs before passed (arg :: rest) ⟨switches flags, .unknown arg⟩
  | buried {arg : Bytes} {rest : List Bytes} {flags : List φ} (unknown : Unknown specs arg flags)
      (buried : Buried specs arg) : Finish specs before passed (arg :: rest)
        ⟨switches flags, .unknown (passed.getLast?.getD before)⟩

inductive Reading (specs : List (Spec φ)) (program : Bytes) : List Bytes → Scan φ → Prop
  | intro {front rest read passed : List Bytes} {options options' : List (φ × Bytes)}
      {ending : Ending} (words : Words specs front options read passed)
      (finish : Finish specs (read.getLast?.getD program) passed rest ⟨options', ending⟩) :
    Reading specs program (front ++ rest) ⟨options ++ options', ending⟩

variable {specs : List (Spec φ)} {arg name value letters program before : Bytes} {c : UInt8}
  {cs : Bytes} {args front rest read passed passed' : List Bytes} {s s' : Spec φ} {flags : List φ}
  {e : ClusterEnd φ} {options : List (φ × Bytes)} {r : Scan φ}

/-! Arguments by their shape -/

theorem of_positional (h : Positional arg) : Argument.of arg = .positional := by
  rw [Argument.of]
  · rintro rfl
    exact h _ _ rfl
  · rintro text rfl
    exact h _ _ rfl
  · rintro c cs rfl
    exact h _ _ rfl

theorem of_long (hne : name ≠ []) (hbare : 61 ∉ name) :
    Argument.of (45 :: 45 :: name) = .long name none := by
  have hall : ∀ b ∈ name, b != 61 := fun b hb => bne_iff_ne.2 fun h => hbare (h ▸ hb)
  rw [Argument.of]
  · rw [List.dropWhile_eq_nil_iff.2 hall]
  · exact hne

theorem of_attached (hbare : 61 ∉ name) :
    Argument.of (45 :: 45 :: (name ++ 61 :: value)) = .long name (some value) := by
  have hall : ∀ b ∈ name, b != 61 := fun b hb => bne_iff_ne.2 fun h => hbare (h ▸ hb)
  rw [Argument.of]
  · rw [List.dropWhile_append_of_pos hall, List.takeWhile_append_of_pos hall]
    rw [List.dropWhile_cons_of_neg (by decide), List.takeWhile_cons_of_neg (by decide)]
    rw [List.append_nil]
  · simp

theorem of_cluster (hc : c ≠ 45) : Argument.of (45 :: c :: cs) = .cluster (c :: cs) := by
  rw [Argument.of]
  · exact fun h => absurd h hc
  · exact hc

theorem arg_cases (arg : Bytes) : Positional arg ∨ arg = [45, 45] ∨
    (∃ name, name ≠ [] ∧ 61 ∉ name ∧ arg = 45 :: 45 :: name) ∨
    (∃ name value, 61 ∉ name ∧ arg = 45 :: 45 :: (name ++ 61 :: value)) ∨
    ∃ c cs, c ≠ 45 ∧ arg = 45 :: c :: cs := by
  by_cases hpos : Positional arg
  · exact .inl hpos
  · rw [Positional] at hpos
    push Not at hpos
    obtain ⟨c, cs, rfl⟩ := hpos
    by_cases hc : c = 45
    · subst hc
      by_cases hvalue : 61 ∈ cs
      · obtain ⟨name, value, rfl, hbare⟩ := List.eq_append_cons_of_mem hvalue
        exact .inr (.inr (.inr (.inl ⟨name, value, hbare, rfl⟩)))
      · by_cases hcs : cs = []
        · exact .inr (.inl (by rw [hcs]))
        · exact .inr (.inr (.inl ⟨cs, hcs, hvalue, rfl⟩))
    · exact .inr (.inr (.inr (.inr ⟨c, cs, hc, rfl⟩)))

/-! Long options and clusters -/

theorem longOption?_of_means (hspecs : Distinct specs) (h : Means specs name s) :
    longOption? specs name = some s := by
  cases h with
  | whole mem long =>
    have hfind : ∃ r, specs.find? (fun r => r.long = name) = some r := by
      rw [← Option.isSome_iff_exists, List.find?_isSome]
      exact ⟨s, mem, decide_eq_true long⟩
    obtain ⟨r, hr⟩ := hfind
    have hlong : r.long = name := by simpa using List.find?_some hr
    have hrs : r = s := List.inj_on_of_nodup_map hspecs.longs (List.mem_of_find?_eq_some hr) mem
      (hlong.trans long.symm)
    rw [longOption?, hr, hrs]
  | beginning mem none long only =>
    have hfind : specs.find? (fun r => r.long = name) = Option.none := by
      rw [List.find?_eq_none]
      exact fun r hr h => none r hr (of_decide_eq_true h)
    have hmem : ∀ r, r ∈ specs.filter (fun r => name.isPrefixOf r.long) ↔ r = s := by
      intro r
      rw [List.mem_filter, List.isPrefixOf_iff_prefix]
      constructor
      · exact fun h => only r h.1 h.2
      · rintro rfl
        exact ⟨mem, long⟩
    have hnodup := (hspecs.longs.of_map _).filter fun r => name.isPrefixOf r.long
    have hfilter := (List.perm_ext_iff_of_nodup hnodup (List.nodup_singleton s)).2 fun r =>
      (hmem r).trans List.mem_singleton.symm
    rw [longOption?, hfind]
    dsimp only
    rw [List.perm_singleton.1 hfilter]

theorem means_of_longOption? (h : longOption? specs name = some s) : Means specs name s := by
  rw [longOption?] at h
  split at h
  · rename_i r hr
    cases h
    exact .whole (List.mem_of_find?_eq_some hr) (by simpa using List.find?_some hr)
  · rename_i hnone
    split at h
    · rename_i r hr
      cases h
      have hmem : ∀ q, q ∈ specs.filter (fun q => name.isPrefixOf q.long) ↔ q = s := by
        intro q
        rw [hr, List.mem_singleton]
      have hs := List.mem_filter.1 ((hmem s).2 rfl)
      refine .beginning hs.1 ?_ (List.isPrefixOf_iff_prefix.1 hs.2) ?_
      · intro q hq hlong
        exact List.find?_eq_none.1 hnone q hq (decide_eq_true hlong)
      · intro q hq hlong
        exact (hmem q).1 (List.mem_filter.2 ⟨hq, List.isPrefixOf_iff_prefix.2 hlong⟩)
    · cases h

theorem longOption?_eq_none (h : ∀ s, ¬ Means specs name s) : longOption? specs name = none := by
  rw [Option.eq_none_iff_forall_ne_some]
  exact fun s hs => h s (means_of_longOption? hs)

theorem Distinct.eq_of_letter (hspecs : Distinct specs) (hr : s' ∈ specs) (hs : s ∈ specs)
    (hrc : s'.letter = some c) (hsc : s.letter = some c) : s' = s := by
  by_contra hne
  have hsymm : Std.Symm fun r s : Spec φ => r.letter = s.letter → r.letter = none :=
    ⟨fun r s h hrs => hrs.trans (h hrs.symm)⟩
  have hnone := hspecs.letters.forall hr hs hne (hrc.trans hsc.symm)
  cases hrc.symm.trans hnone

theorem letterOption?_eq_some (hspecs : Distinct specs) (hs : s ∈ specs) (hc : s.letter = some c) :
    letterOption? specs c = some s := by
  rw [letterOption?]
  have hfind : ∃ r, specs.find? (fun r => r.letter = some c) = some r := by
    rw [← Option.isSome_iff_exists, List.find?_isSome]
    exact ⟨s, hs, decide_eq_true hc⟩
  obtain ⟨r, hr⟩ := hfind
  have hletter : r.letter = some c := by simpa using List.find?_some hr
  rw [hr, hspecs.eq_of_letter (List.mem_of_find?_eq_some hr) hs hletter hc]

theorem scanCluster_eq (hspecs : Distinct specs) (h : Cluster specs letters flags e) :
    scanCluster specs letters = (flags, e) := by
  induction h with
  | complete => rfl
  | switch mem letter plain _ ih =>
    rw [scanCluster, letterOption?_eq_some hspecs mem letter]
    dsimp only
    rw [plain, if_neg Bool.false_ne_true, ih]
  | @value s c value mem letter takes attached =>
    rw [scanCluster, letterOption?_eq_some hspecs mem letter]
    dsimp only
    rw [if_pos takes, if_neg (by simpa using attached)]
  | wantsValue mem letter takes =>
    rw [scanCluster, letterOption?_eq_some hspecs mem letter]
    dsimp only
    rw [if_pos takes]
    rfl
  | @unknown c cs none =>
    have hnone : letterOption? specs c = Option.none := by
      rw [letterOption?, List.find?_eq_none]
      exact fun s hs h => none s hs (of_decide_eq_true h)
    rw [scanCluster, hnone]

theorem exists_cluster (specs : List (Spec φ)) (letters : Bytes) :
    ∃ flags e, Cluster specs letters flags e := by
  induction letters with
  | nil => exact ⟨_, _, .complete⟩
  | cons c cs ih =>
    by_cases hc : ∃ s ∈ specs, s.letter = some c
    · obtain ⟨s, hs, hc⟩ := hc
      cases htakes : s.takesValue with
      | false =>
        obtain ⟨flags, e, h⟩ := ih
        exact ⟨_, _, .switch hs hc htakes h⟩
      | true =>
        by_cases hcs : cs = []
        · subst hcs
          exact ⟨_, _, .wantsValue hs hc htakes⟩
        · exact ⟨_, _, .value hs hc htakes hcs⟩
    · exact ⟨_, _, .unknown fun s hs h => hc ⟨s, hs, h⟩⟩

theorem Unknown.head?_eq (h : Unknown specs arg flags) : arg.head? = some 45 := by
  cases h <;> rfl

/-! The scan of a beginning and of an end -/

def Scan.behind (options : List (φ × Bytes)) (r : Scan φ) : Scan φ :=
  { r with found := options ++ r.found }

theorem scanFrom_positional (h : Positional arg) (before : Bytes) (passed rest : List Bytes) :
    scanFrom specs before passed (arg :: rest) = scanFrom specs before (passed ++ [arg]) rest := by
  rw [scanFrom, of_positional h]

theorem scanFrom_wanting (hspecs : Distinct specs) {f : φ} (h : Wanting specs arg flags f)
    (before value : Bytes) (passed rest : List Bytes) :
    scanFrom specs before passed [arg] = ⟨switches flags, .missingValue arg⟩ ∧
      scanFrom specs before passed (arg :: value :: rest) =
        (scanFrom specs value passed rest).behind (switches flags ++ [(f, value)]) := by
  cases h with
  | long ne_nil bare means takes =>
    refine ⟨?_, ?_⟩
    all_goals
      rw [scanFrom, of_long ne_nil bare]
      dsimp only
      rw [longOption?_of_means hspecs means]
      dsimp only
      rw [if_pos takes]
      rfl
  | cluster single letters =>
    refine ⟨?_, ?_⟩
    · rw [scanFrom, of_cluster single]
      dsimp only
      rw [scanCluster_eq hspecs letters]
      dsimp only
      rw [Scan.consAll, List.append_nil, switches]
    · rw [scanFrom, of_cluster single]
      dsimp only
      rw [scanCluster_eq hspecs letters, Scan.behind, switches, List.append_assoc]
      rfl

theorem scanFrom_word (hspecs : Distinct specs) (h : Word specs args options) (before : Bytes)
    (passed rest : List Bytes) : scanFrom specs before passed (args ++ rest) =
      (scanFrom specs (args.getLast?.getD before) passed rest).behind options := by
  cases h with
  | long ne_nil bare means plain =>
    rw [List.singleton_append, scanFrom, of_long ne_nil bare]
    dsimp only
    rw [longOption?_of_means hspecs means]
    dsimp only
    rw [plain, if_neg Bool.false_ne_true]
    rfl
  | attached bare means takes =>
    rw [List.singleton_append, scanFrom, of_attached bare]
    dsimp only
    rw [longOption?_of_means hspecs means]
    dsimp only
    rw [if_pos takes]
    rfl
  | cluster single letters =>
    rw [List.singleton_append, scanFrom, of_cluster single]
    dsimp only
    rw [scanCluster_eq hspecs letters]
    rfl
  | clusterValue single letters =>
    rw [List.singleton_append, scanFrom, of_cluster single]
    dsimp only
    rw [scanCluster_eq hspecs letters, Scan.behind, switches, List.append_assoc]
    rfl
  | apart wanting => exact (scanFrom_wanting hspecs wanting before _ passed rest).2

theorem scanFrom_words (hspecs : Distinct specs) (h : Words specs front options read passed')
    (before : Bytes) (passed rest : List Bytes) : scanFrom specs before passed (front ++ rest) =
      (scanFrom specs (read.getLast?.getD before) (passed ++ passed') rest).behind options := by
  induction h generalizing before passed with
  | nil =>
    rw [List.append_nil]
    rfl
  | pass positional _ ih =>
    rw [List.cons_append, scanFrom_positional positional, ih, List.append_assoc,
      List.singleton_append]
  | @read args front read passed' options options' word _ ih =>
    rw [List.append_assoc, scanFrom_word hspecs word, ih, List.getLast?_append, Scan.behind,
      Scan.behind, Scan.behind, List.append_assoc]
    cases read.getLast? <;> rfl

theorem scanFrom_unknown (hspecs : Distinct specs) (h : Unknown specs arg flags) (before : Bytes)
    (passed rest : List Bytes) :
    (¬ Buried specs arg → scanFrom specs before passed (arg :: rest) =
      ⟨switches flags, .unknown arg⟩) ∧
    (Buried specs arg → scanFrom specs before passed (arg :: rest) =
      ⟨switches flags, .unknown (passed.getLast?.getD before)⟩) := by
  have hlong : ∀ name, ¬ Buried specs (45 :: 45 :: name) := by
    rintro name ⟨c, cs, flags, harg, hc, _⟩
    cases harg
    exact hc rfl
  cases h with
  | long ne_nil bare none =>
    refine ⟨fun _ => ?_, fun hb => absurd hb (hlong _)⟩
    rw [scanFrom, of_long ne_nil bare]
    dsimp only
    rw [longOption?_eq_none none]
    rfl
  | attached bare none =>
    refine ⟨fun _ => ?_, fun hb => absurd hb (hlong _)⟩
    rw [scanFrom, of_attached bare]
    dsimp only
    rw [longOption?_eq_none none]
    rfl
  | surplus bare means plain =>
    refine ⟨fun _ => ?_, fun hb => absurd hb (hlong _)⟩
    rw [scanFrom, of_attached bare]
    dsimp only
    rw [longOption?_of_means hspecs means]
    dsimp only
    rw [plain, if_neg Bool.false_ne_true]
    rfl
  | @cluster c cs flags isLast single letters =>
    have hscan : scanFrom specs before passed ((45 :: c :: cs) :: rest) = ⟨switches flags,
        .unknown (if isLast then 45 :: c :: cs else passed.getLast?.getD before)⟩ := by
      rw [scanFrom, of_cluster single]
      dsimp only
      rw [scanCluster_eq hspecs letters]
      dsimp only
      rw [Scan.consAll, List.append_nil, switches]
    rw [hscan]
    cases isLast with
    | true =>
      refine ⟨fun _ => rfl, ?_⟩
      rintro ⟨c', cs', flags', harg, _, hletters⟩
      cases harg
      cases (scanCluster_eq hspecs letters).symm.trans (scanCluster_eq hspecs hletters)
    | false => exact ⟨fun hb => absurd ⟨c, cs, flags, rfl, single, letters⟩ hb, fun _ => rfl⟩

theorem scanFrom_finish (hspecs : Distinct specs) (h : Finish specs before passed rest r) :
    scanFrom specs before passed rest = r := by
  cases h with
  | all => rfl
  | separator => rfl
  | missing wanting => exact (scanFrom_wanting hspecs wanting before [] passed []).1
  | unknown unknown last => exact (scanFrom_unknown hspecs unknown before passed _).1 last
  | buried unknown buried => exact (scanFrom_unknown hspecs unknown before passed _).2 buried

/-! There is a reading of every command line -/

theorem next_cases (specs : List (Spec φ)) (arg : Bytes) (rest : List Bytes) : Positional arg ∨
    (∃ args more options, arg :: rest = args ++ more ∧ more.length ≤ rest.length ∧
      Word specs args options) ∨
    ∀ before passed, ∃ r, Finish specs before passed (arg :: rest) r := by
  have hword : ∀ options, Word specs [arg] options → ∃ args more options, arg :: rest = args ++ more ∧
      more.length ≤ rest.length ∧ Word specs args options := fun options h =>
    ⟨[arg], rest, options, rfl, Nat.le_refl _, h⟩
  have hwanting : ∀ flags f, Wanting specs arg flags f →
      (∃ args more options, arg :: rest = args ++ more ∧ more.length ≤ rest.length ∧
        Word specs args options) ∨
      ∀ before passed, ∃ r, Finish specs before passed (arg :: rest) r := by
    intro flags f h
    cases rest with
    | nil => exact .inr fun before passed => ⟨_, .missing h⟩
    | cons value rest =>
      exact .inl ⟨[arg, value], rest, _, rfl, Nat.le_succ _, .apart h⟩
  have hunknown : ∀ flags, Unknown specs arg flags →
      ∀ before passed, ∃ r, Finish specs before passed (arg :: rest) r := by
    intro flags h before passed
    by_cases hb : Buried specs arg
    · exact ⟨_, .buried h hb⟩
    · exact ⟨_, .unknown h hb⟩
  rcases arg_cases arg with hpos | rfl | ⟨name, hne, hbare, rfl⟩ | ⟨name, value, hbare, rfl⟩ |
    ⟨c, cs, hc, rfl⟩
  · exact .inl hpos
  · exact .inr (.inr fun before passed => ⟨_, .separator⟩)
  · right
    by_cases hmeans : ∃ s, Means specs name s
    · obtain ⟨s, hs⟩ := hmeans
      cases htakes : s.takesValue with
      | false => exact .inl (hword _ (.long hne hbare hs htakes))
      | true => exact hwanting _ _ (.long hne hbare hs htakes)
    · exact .inr (hunknown _ (.long hne hbare (not_exists.1 hmeans)))
  · right
    by_cases hmeans : ∃ s, Means specs name s
    · obtain ⟨s, hs⟩ := hmeans
      cases htakes : s.takesValue with
      | false => exact .inr (hunknown _ (.surplus hbare hs htakes))
      | true => exact .inl (hword _ (.attached hbare hs htakes))
    · exact .inr (hunknown _ (.attached hbare (not_exists.1 hmeans)))
  · right
    obtain ⟨flags, e, h⟩ := exists_cluster specs (c :: cs)
    cases e with
    | complete => exact .inl (hword _ (.cluster hc h))
    | value f value => exact .inl (hword _ (.clusterValue hc h))
    | wantsValue f => exact hwanting _ _ (.cluster hc h)
    | unknown isLast => exact .inr (hunknown _ (.cluster hc h))

theorem exists_words (specs : List (Spec φ)) (args : List Bytes) :
    ∃ front rest options read passed, args = front ++ rest ∧
      Words specs front options read passed ∧
      ∀ before passed', ∃ r, Finish specs before passed' rest r := by
  -- an option can take two arguments, so this is by how many are left
  induction h : args.length using Nat.strong_induction_on generalizing args with
  | _ n ih =>
    subst h
    cases args with
    | nil => exact ⟨[], [], [], [], [], rfl, .nil, fun before passed' => ⟨_, .all⟩⟩
    | cons arg rest =>
      rcases next_cases specs arg rest with hpos | ⟨args, more, options, heq, hle, hword⟩ | hfinish
      · obtain ⟨front, rest, options, read, passed, rfl, hwords, hfinish⟩ :=
          ih _ (Nat.lt_succ_self _) rest rfl
        exact ⟨_, rest, _, _, _, rfl, .pass hpos hwords, hfinish⟩
      · obtain ⟨front, rest', options', read, passed, rfl, hwords, hfinish⟩ :=
          ih _ (Nat.lt_succ_of_le hle) more rfl
        refine ⟨args ++ front, rest', _, _, _, ?_, .read hword hwords, hfinish⟩
        rw [heq, List.append_assoc]
      · exact ⟨[], arg :: rest, [], [], [], rfl, .nil, hfinish⟩

theorem exists_reading (specs : List (Spec φ)) (program : Bytes) (args : List Bytes) :
    ∃ r, Reading specs program args r := by
  obtain ⟨front, rest, options, read, passed, rfl, hwords, hfinish⟩ := exists_words specs args
  obtain ⟨⟨options', ending⟩, hr⟩ := hfinish (read.getLast?.getD program) passed
  exact ⟨_, .intro hwords hr⟩

theorem scan_eq_iff (hspecs : Distinct specs) :
    scan specs program args = r ↔ Reading specs program args r := by
  have hread : ∀ r, Reading specs program args r → scan specs program args = r := by
    rintro _ ⟨hwords, hfinish⟩
    rw [scan, scanFrom_words hspecs hwords, List.nil_append, scanFrom_finish hspecs hfinish]
    rfl
  constructor
  · rintro rfl
    obtain ⟨r, hr⟩ := exists_reading specs program args
    rw [hread r hr]
    exact hr
  · exact hread r

/-! Readings that end with an argument that is blamed -/

theorem reading_missing_iff {found : List (φ × Bytes)} {blamed : Bytes} :
    Reading specs program args ⟨found, .missingValue blamed⟩ ↔
      ∃ front options read passed flags f, args = front ++ [blamed] ∧
        Words specs front options read passed ∧ Wanting specs blamed flags f ∧
        found = options ++ switches flags := by
  constructor
  · intro h
    cases h with
    | intro words finish =>
      cases finish with
      | missing wanting => exact ⟨_, _, _, _, _, _, rfl, words, wanting, rfl⟩
  · rintro ⟨front, options, read, passed, flags, f, rfl, words, wanting, rfl⟩
    exact .intro words (.missing wanting)

theorem reading_unknown_iff {found : List (φ × Bytes)} {blamed : Bytes} :
    Reading specs program args ⟨found, .unknown blamed⟩ ↔
      ∃ front arg rest options read passed flags, args = front ++ arg :: rest ∧
        Words specs front options read passed ∧ Unknown specs arg flags ∧
        found = options ++ switches flags ∧ (¬ Buried specs arg → blamed = arg) ∧
        (Buried specs arg → blamed = passed.getLast?.getD (read.getLast?.getD program)) := by
  constructor
  · intro h
    cases h with
    | intro words finish =>
      cases finish with
      | unknown unknown last =>
        exact ⟨_, _, _, _, _, _, _, rfl, words, unknown, rfl, fun _ => rfl, fun h => absurd h last⟩
      | buried unknown buried =>
        exact ⟨_, _, _, _, _, _, _, rfl, words, unknown, rfl, fun h => absurd buried h,
          fun _ => rfl⟩
  · rintro ⟨front, arg, rest, options, read, passed, flags, rfl, words, unknown, rfl, hlast,
      hburied⟩
    by_cases hb : Buried specs arg
    · rw [hburied hb]
      exact .intro words (.buried unknown hb)
    · rw [hlast hb]
      exact .intro words (.unknown unknown hb)

end CommandLine
end Tftp
