import Tftp.Proofs.CommandLine.Reading
import Tftp.Proofs.Settings.Numbers

namespace Tftp

open CommandLine

inductive Setting
  | text (text : Bytes)
  | number (n : Nat)
  | switch (on : Bool)

/-- What an option sets with a value. Nothing is set by a value that the option refuses, nor by a
call for help. -/
inductive Gives : Flag → Bytes → Setting → Prop
  | addr {value : Bytes} {e : Endpoint} (parses : Endpoint.parse? value 0 = some e) :
    Gives .addr value (.text value)
  | dir (value : Bytes) : Gives .dir value (.text value)
  | user (value : Bytes) : Gives .user value (.text value)
  | group (value : Bytes) : Gives .group value (.text value)
  | number {f : Flag} {what value : Bytes} {lo hi n : Nat} {z : Int}
      (numeric : f.numeric? = some (what, lo, hi)) (taken : Taken lo hi value z n) :
    Gives f value (.number n)
  | noOverwrite (value : Bytes) : Gives .noOverwrite value (.switch false)

def lastValue? (options : List (Flag × Bytes)) (f : Flag) : Option Bytes :=
  (options.filter (·.1 = f)).getLast?.map (·.2)

namespace Settings

def get (s : Settings) : Flag → Option Setting
  | .addr => some (.text s.address)
  | .port => some (.number s.port.toNat)
  | .dir => some (.text s.root)
  | .user => some (.text s.user)
  | .group => some (.text s.group)
  | .timeout => some (.number s.timeout)
  | .retries => some (.number s.retries)
  | .maxSessions => some (.number s.maxSessions)
  | .noOverwrite => some (.switch s.overwrite)
  | .help => none

structure Valid (s : Settings) : Prop where
  address : ∃ e, Endpoint.parse? s.address 0 = some e
  port : 1 ≤ s.port.toNat ∧ s.port.toNat ≤ 65535
  timeout : 1 ≤ s.timeout ∧ s.timeout ≤ 255
  retries : s.retries ≤ 255
  maxSessions : 1 ≤ s.maxSessions ∧ s.maxSessions ≤ 1000000

/-- The settings with these options on top: every option is good, the last one of a kind is what is
set, and what no option is about is kept. -/
structure Effect (start s : Settings) (options : List (Flag × Bytes)) : Prop where
  accepted : ∀ f value, (f, value) ∈ options → ∃ x, Gives f value x
  last : ∀ f value x, lastValue? options f = some value → Gives f value x → s.get f = some x
  kept : ∀ f, lastValue? options f = none → s.get f = start.get f

/-- How a command line ends: with the verdict on the option that stops it, or, if there is none, on
what else there is. -/
inductive Ends (s : Settings) (isDirectory : Bytes → Bool) :
    List (Flag × Bytes) → Ending → Except Refusal Verdict → Prop
  | help {value : Bytes} {rest : List (Flag × Bytes)} {ending : Ending} :
    Ends s isDirectory ((.help, value) :: rest) ending (.ok .help)
  | refused {f : Flag} {value : Bytes} {rest : List (Flag × Bytes)} {ending : Ending} {e : Refusal}
      (hf : f ≠ .help) (not_given : ∀ x, ¬ Gives f value x) (refusal : s.set f value = .error e) :
    Ends s isDirectory ((f, value) :: rest) ending (.error e)
  | missing {arg : Bytes} :
    Ends s isDirectory [] (.missingValue arg) (.error (.missingValue arg))
  | unknown {arg : Bytes} : Ends s isDirectory [] (.unknown arg) (.error (.unknownOption arg))
  | unexpected {arg : Bytes} {more : List Bytes} :
    Ends s isDirectory [] (.complete (arg :: more)) (.error (.unexpected arg))
  | noRoot (root : s.root = []) : Ends s isDirectory [] (.complete []) (.error .noRoot)
  | notADirectory (root : s.root ≠ []) (no_directory : isDirectory s.root = false) :
    Ends s isDirectory [] (.complete []) (.error (.notADirectory s.root))
  | run (root : s.root ≠ []) (directory : isDirectory s.root = true) :
    Ends s isDirectory [] (.complete []) (.ok .run)

variable {start s s' : Settings} {f g : Flag} {value : Bytes} {x y : Setting}
  {options others : List (Flag × Bytes)} {verdict : Option (Except Refusal Verdict)}

/-! One option -/

theorem ext_get (h : ∀ f, s.get f = s'.get f) : s = s' := by
  obtain ⟨address, port, root, user, group, timeout, retries, maxSessions, overwrite⟩ := s
  obtain ⟨address', port', root', user', group', timeout', retries', maxSessions', overwrite'⟩ := s'
  have haddr := h .addr
  have hport := h .port
  have hdir := h .dir
  have huser := h .user
  have hgroup := h .group
  have htimeout := h .timeout
  have hretries := h .retries
  have hmax := h .maxSessions
  have hover := h .noOverwrite
  simp only [get, Option.some.injEq, Setting.text.injEq, Setting.number.injEq,
    Setting.switch.injEq, UInt16.toNat_inj] at *
  subst_vars
  rfl

theorem get_numeric {what : Bytes} {lo hi : Nat} (hf : f.numeric? = some (what, lo, hi)) :
    s.get f = (s.number? f).map .number := by
  cases f <;> cases hf <;> rfl

theorem get_withNumber {what : Bytes} {lo hi n : Nat} (hf : f.numeric? = some (what, lo, hi))
    (hg : g ≠ f) : (s.withNumber n f).get g = s.get g := by
  cases f <;> cases hf <;> cases g <;> first | rfl | exact absurd rfl hg

theorem set_gives (h : Gives f value x) (s : Settings) : ∃ s', s.set f value = .ok s' ∧
    s'.get f = some x ∧ ∀ g, g ≠ f → s'.get g = s.get g := by
  cases h with
  | addr parses =>
    refine ⟨{ s with address := value }, ?_, rfl, ?_⟩
    · rw [set, parses]
    · intro g hg
      cases g <;> first | rfl | exact absurd rfl hg
  | dir | user | group | noOverwrite =>
    refine ⟨_, rfl, rfl, ?_⟩
    intro g hg
    cases g <;> first | rfl | exact absurd rfl hg
  | @number _ what _ lo hi n z numeric taken =>
    refine ⟨s.withNumber n f, ?_, ?_, fun g hg => get_withNumber numeric hg⟩
    · rw [set_numeric numeric, (readNumber_eq_ok_iff (numeric_lt numeric)).2 ⟨z, taken⟩]
      rfl
    · rw [get_numeric numeric, number?_withNumber numeric taken.le_hi]
      rfl

inductive Sets (s : Settings) : Flag → Bytes → Except Refusal Settings → Prop
  | number {f : Flag} {what value : Bytes} {lo hi n : Nat} {z : Int}
      (numeric : f.numeric? = some (what, lo, hi)) (taken : Taken lo hi value z n) :
    Sets s f value (.ok (s.withNumber n f))
  | noNumber {f : Flag} {what value : Bytes} {lo hi : Nat} {e : Refusal}
      (numeric : f.numeric? = some (what, lo, hi))
      (refusal : readNumber what lo hi value = .error e) :
    Sets s f value (.error e)
  | addr {value : Bytes} {e : Endpoint} (parses : Endpoint.parse? value 0 = some e) :
    Sets s .addr value (.ok { s with address := value })
  | noAddress {value : Bytes} : Sets s .addr value (.error (.badAddress value))
  | dir (value : Bytes) : Sets s .dir value (.ok { s with root := value })
  | user (value : Bytes) : Sets s .user value (.ok { s with user := value })
  | group (value : Bytes) : Sets s .group value (.ok { s with group := value })
  | noOverwrite (value : Bytes) : Sets s .noOverwrite value (.ok { s with overwrite := false })
  | help (value : Bytes) : Sets s .help value (.ok s)

theorem sets_set (s : Settings) (f : Flag) (value : Bytes) : Sets s f value (s.set f value) := by
  cases hnumeric : f.numeric? with
  | some r =>
    obtain ⟨what, lo, hi⟩ := r
    rw [set_numeric hnumeric]
    cases hread : readNumber what lo hi value with
    | error e => exact .noNumber hnumeric hread
    | ok n =>
      obtain ⟨z, hz⟩ := (readNumber_eq_ok_iff (numeric_lt hnumeric)).1 hread
      exact .number hnumeric hz
  | none =>
    cases f with
    | addr =>
      rw [set]
      split
      · exact .addr ‹_›
      · exact .noAddress
    | dir => exact .dir value
    | user => exact .user value
    | group => exact .group value
    | noOverwrite => exact .noOverwrite value
    | help => exact .help value
    | port | timeout | retries | maxSessions => cases hnumeric

theorem gives_of_set (hf : f ≠ .help) (h : s.set f value = .ok s') : ∃ x, Gives f value x := by
  have hsets := sets_set s f value
  rw [h] at hsets
  cases hsets with
  | number numeric taken => exact ⟨_, .number numeric taken⟩
  | addr parses => exact ⟨_, .addr parses⟩
  | dir => exact ⟨_, .dir value⟩
  | user => exact ⟨_, .user value⟩
  | group => exact ⟨_, .group value⟩
  | noOverwrite => exact ⟨_, .noOverwrite value⟩
  | help => exact absurd rfl hf

theorem set_error {e : Refusal} (h : s.set f value = .error e) :
    e = .badAddress value ∨ (∃ what, e = .notANumber what value) ∨
      ∃ what lo hi, e = .outOfRange what value lo hi := by
  have hsets := sets_set s f value
  rw [h] at hsets
  cases hsets with
  | @noNumber _ what _ lo hi _ _ refusal =>
    rcases readNumber_error refusal with rfl | rfl
    · exact .inr (.inl ⟨what, rfl⟩)
    · exact .inr (.inr ⟨what, lo, hi, rfl⟩)
  | noAddress => exact .inl rfl

theorem gives_unique (hx : Gives f value x) (hy : Gives f value y) : x = y := by
  obtain ⟨s, hs, hget, _⟩ := set_gives hx {}
  obtain ⟨s', hs', hget', _⟩ := set_gives hy {}
  cases hs.symm.trans hs'
  exact Option.some.inj (hget.symm.trans hget')

theorem withNumber_valid {what : Bytes} {lo hi n : Nat} {z : Int} (hs : s.Valid)
    (numeric : f.numeric? = some (what, lo, hi)) (taken : Taken lo hi value z n) :
    (s.withNumber n f).Valid := by
  have hnumber := number?_withNumber (s := s) numeric taken.le_hi
  have hlo := taken.lo_le
  have hhi := taken.le_hi
  cases f with
  | port =>
    cases numeric
    rw [← Option.some.inj hnumber] at hlo hhi
    exact { hs with port := ⟨hlo, hhi⟩ }
  | timeout =>
    cases numeric
    exact { hs with timeout := ⟨hlo, hhi⟩ }
  | retries =>
    cases numeric
    exact { hs with retries := hhi }
  | maxSessions =>
    cases numeric
    exact { hs with maxSessions := ⟨hlo, hhi⟩ }
  | addr | dir | user | group | noOverwrite | help => cases numeric

theorem set_valid (hs : s.Valid) (h : s.set f value = .ok s') : s'.Valid := by
  have hsets := sets_set s f value
  rw [h] at hsets
  cases hsets with
  | number numeric taken => exact withNumber_valid hs numeric taken
  | addr parses => exact { hs with address := ⟨_, parses⟩ }
  | dir | user | group | noOverwrite => exact { hs with }
  | help => exact hs

theorem valid_default : ({} : Settings).Valid :=
  ⟨Option.isSome_iff_exists.1 (by decide +kernel), by decide, by decide, by decide, by decide⟩

/-! All options up to the one that stops them -/

theorem lastValue?_cons (f g : Flag) (value : Bytes) (options : List (Flag × Bytes)) :
    lastValue? ((f, value) :: options) g =
      (lastValue? options g).or (if f = g then some value else none) := by
  rw [lastValue?, lastValue?, List.filter_cons]
  by_cases hfg : f = g
  · rw [if_pos (decide_eq_true hfg), if_pos hfg, List.getLast?_cons]
    cases (options.filter fun o => o.1 = g).getLast? <;> rfl
  · rw [if_neg (by simpa using hfg), if_neg hfg, Option.or_none]

theorem mem_of_lastValue? (h : lastValue? options f = some value) : (f, value) ∈ options := by
  rw [lastValue?, Option.map_eq_some_iff] at h
  obtain ⟨⟨g, value'⟩, hlast, rfl⟩ := h
  have hmem := List.mem_filter.1 (List.mem_of_getLast? hlast)
  obtain rfl : g = f := of_decide_eq_true hmem.2
  exact hmem.1

theorem Effect.unique (h : Effect start s options) (h' : Effect start s' options) : s = s' := by
  apply ext_get
  intro f
  cases hlast : lastValue? options f with
  | none => rw [h.kept f hlast, h'.kept f hlast]
  | some value =>
    obtain ⟨x, hx⟩ := h.accepted f value (mem_of_lastValue? hlast)
    rw [h.last f value x hlast hx, h'.last f value x hlast hx]

theorem Effect.cons {next : Settings} (hx : Gives f value x) (hf : next.get f = some x)
    (hkept : ∀ g, g ≠ f → next.get g = start.get g) (h : Effect next s options) :
    Effect start s ((f, value) :: options) := by
  refine ⟨?_, ?_, ?_⟩
  · intro g v hmem
    rcases List.mem_cons.1 hmem with heq | hmem
    · cases heq
      exact ⟨x, hx⟩
    · exact h.accepted g v hmem
  · intro g v y hlast hy
    rw [lastValue?_cons] at hlast
    cases hrest : lastValue? options g with
    | some w =>
      rw [hrest, Option.some_or] at hlast
      cases hlast
      exact h.last g v y hrest hy
    | none =>
      rw [hrest, Option.none_or] at hlast
      split at hlast
      · rename_i hfg
        subst hfg
        cases hlast
        rw [h.kept f hrest, hf, gives_unique hx hy]
      · cases hlast
  · intro g hlast
    rw [lastValue?_cons, Option.or_eq_none_iff] at hlast
    have hfg : g ≠ f := by
      rintro rfl
      rw [if_pos rfl] at hlast
      cases hlast.2
    rw [h.kept g hlast.1, hkept g hfg]

theorem exists_effect (h : ∀ f value, (f, value) ∈ options → ∃ x, Gives f value x)
    (start : Settings) : ∃ s, start.setAll options = (s, none) ∧ Effect start s options := by
  induction options generalizing start with
  | nil => exact ⟨start, rfl, nofun, nofun, fun _ _ => rfl⟩
  | cons o options ih =>
    obtain ⟨f, value⟩ := o
    obtain ⟨x, hx⟩ := h f value List.mem_cons_self
    obtain ⟨next, hnext, hf, hkept⟩ := set_gives hx start
    obtain ⟨s, hall, heffect⟩ := ih (fun g v hmem => h g v (List.mem_cons_of_mem _ hmem)) next
    have hhelp : f ≠ .help := by
      rintro rfl
      cases hx with
      | number numeric _ => cases numeric
    refine ⟨s, ?_, .cons hx hf hkept heffect⟩
    rw [setAll, if_neg hhelp, hnext]
    exact hall

theorem accepted_of_setAll (h : start.setAll options = (s, none)) :
    ∀ f value, (f, value) ∈ options → ∃ x, Gives f value x := by
  induction options generalizing start with
  | nil => exact nofun
  | cons o options ih =>
    obtain ⟨f, value⟩ := o
    rw [setAll] at h
    split at h
    · cases h
    · rename_i hhelp
      split at h
      · cases h
      · rename_i next hnext
        intro g v hmem
        rcases List.mem_cons.1 hmem with heq | hmem
        · cases heq
          exact gives_of_set hhelp hnext
        · exact ih h g v hmem

theorem setAll_eq_iff : start.setAll options = (s, none) ↔ Effect start s options := by
  constructor
  · intro h
    obtain ⟨s', hall, heffect⟩ := exists_effect (accepted_of_setAll h) start
    cases h.symm.trans hall
    exact heffect
  · intro h
    obtain ⟨s', hall, heffect⟩ := exists_effect h.accepted start
    rw [h.unique heffect]
    exact hall

theorem Effect.perm (h : Effect start s options)
    (hothers : ∀ f, others.filter (·.1 = f) = options.filter (·.1 = f)) :
    Effect start s others := by
  have hlast : ∀ f, lastValue? others f = lastValue? options f := fun f => by
    rw [lastValue?, lastValue?, hothers]
  refine ⟨?_, ?_, ?_⟩
  · intro f value hmem
    have hfilter : (f, value) ∈ others.filter (·.1 = f) :=
      List.mem_filter.2 ⟨hmem, decide_eq_true rfl⟩
    rw [hothers f] at hfilter
    exact h.accepted f value (List.mem_filter.1 hfilter).1
  · intro f value x hvalue
    rw [hlast] at hvalue
    exact h.last f value x hvalue
  · intro f hnone
    rw [hlast] at hnone
    exact h.kept f hnone

theorem setAll_valid (hstart : start.Valid) (h : start.setAll options = (s, verdict)) :
    s.Valid := by
  induction options generalizing start with
  | nil =>
    cases h
    exact hstart
  | cons o options ih =>
    obtain ⟨f, value⟩ := o
    rw [setAll] at h
    split at h
    · cases h
      exact hstart
    · split at h
      · cases h
        exact hstart
      · rename_i next hnext
        exact ih (set_valid hstart hnext) h

theorem setAll_cases (start : Settings) (options : List (Flag × Bytes)) : ∃ taken rest s verdict,
    options = taken ++ rest ∧ start.setAll taken = (s, none) ∧
      start.setAll options = (s, verdict) ∧
      (rest = [] ∧ verdict = none ∨
        (∃ value more, rest = (.help, value) :: more ∧ verdict = some (.ok .help)) ∨
        ∃ f value more e, rest = (f, value) :: more ∧ f ≠ .help ∧ s.set f value = .error e ∧
          verdict = some (.error e)) := by
  induction options generalizing start with
  | nil => exact ⟨[], [], start, none, rfl, rfl, rfl, .inl ⟨rfl, rfl⟩⟩
  | cons o options ih =>
    obtain ⟨f, value⟩ := o
    by_cases hhelp : f = .help
    · subst hhelp
      exact ⟨[], _, start, _, rfl, rfl, rfl, .inr (.inl ⟨value, options, rfl, rfl⟩)⟩
    · cases hset : start.set f value with
      | error e =>
        refine ⟨[], _, start, some (.error e), rfl, rfl, ?_,
          .inr (.inr ⟨f, value, options, e, rfl, hhelp, hset, rfl⟩)⟩
        rw [setAll, if_neg hhelp, hset]
      | ok next =>
        obtain ⟨taken, rest, s, verdict, rfl, htaken, hall, hcases⟩ := ih next
        refine ⟨(f, value) :: taken, rest, s, verdict, rfl, ?_, ?_, hcases⟩
        · rw [setAll, if_neg hhelp, hset]
          exact htaken
        · rw [setAll, if_neg hhelp, hset]
          exact hall

/-! A whole command line -/

theorem ends_nil_iff {isDirectory : Bytes → Bool} {ending : Ending} {v : Except Refusal Verdict} :
    Ends s isDirectory [] ending v ↔ s.conclude isDirectory ending = v := by
  constructor
  · intro h
    cases h with
    | missing | unknown | unexpected => rfl
    | noRoot root => exact if_pos (List.isEmpty_iff.2 root)
    | notADirectory root no_directory =>
      exact (if_neg (mt List.isEmpty_iff.1 root)).trans (if_pos (congrArg _ no_directory))
    | run root directory =>
      refine (if_neg (mt List.isEmpty_iff.1 root)).trans (if_neg ?_)
      rw [directory]
      exact Bool.false_ne_true
  · rintro rfl
    cases ending with
    | missingValue arg => exact .missing
    | unknown arg => exact .unknown
    | complete positional =>
      cases positional with
      | cons arg more => exact .unexpected
      | nil =>
        rw [conclude, check]
        split
        · exact .noRoot (List.isEmpty_iff.1 ‹_›)
        · rename_i hroot
          rw [List.isEmpty_iff] at hroot
          cases hdirectory : isDirectory s.root with
          | false => exact .notADirectory hroot hdirectory
          | true => exact .run hroot hdirectory

theorem run_iff {isDirectory : Bytes → Bool} {ending : Ending} {rest : List (Flag × Bytes)}
    {verdict : Except Refusal Verdict} (h : Ends s isDirectory rest ending verdict) :
    verdict = .ok .run ↔
      rest = [] ∧ ending = .complete [] ∧ s.root ≠ [] ∧ isDirectory s.root = true := by
  constructor
  · rintro rfl
    cases h with
    | run root directory => exact ⟨rfl, rfl, root, directory⟩
  · rintro ⟨rfl, rfl, root, directory⟩
    cases h with
    | noRoot hroot => exact absurd hroot root
    | notADirectory _ no_directory => cases directory.symm.trans no_directory
    | run => rfl

theorem distinct_specs : Distinct Flag.specs := ⟨by decide +kernel, by decide +kernel⟩

theorem ofCommandLine_eq_iff {isDirectory : Bytes → Bool} {program : Bytes} {args : List Bytes}
    {verdict : Except Refusal Verdict} :
    start.ofCommandLine isDirectory program args = (s, verdict) ↔
      ∃ taken rest ending, Reading Flag.specs program args ⟨taken ++ rest, ending⟩ ∧
        Effect start s taken ∧ Ends s isDirectory rest ending verdict := by
  rw [ofCommandLine]
  constructor
  · intro h
    obtain ⟨taken, rest, s', verdict', hfound, htaken, hall, hcases⟩ :=
      setAll_cases start (scan Flag.specs program args).found
    have hreading : Reading Flag.specs program args
        ⟨taken ++ rest, (scan Flag.specs program args).ending⟩ := by
      rw [← scan_eq_iff distinct_specs, ← hfound]
    rw [hall] at h
    refine ⟨taken, rest, _, hreading, ?_⟩
    rcases hcases with ⟨rfl, rfl⟩ | ⟨value, more, rfl, rfl⟩ | ⟨f, value, more, e, rfl, hf, he, rfl⟩
    · cases h
      exact ⟨setAll_eq_iff.1 htaken, ends_nil_iff.2 rfl⟩
    · cases h
      exact ⟨setAll_eq_iff.1 htaken, .help⟩
    · cases h
      refine ⟨setAll_eq_iff.1 htaken, .refused hf ?_ he⟩
      intro x hx
      obtain ⟨s', hs', _⟩ := set_gives hx s
      cases he.symm.trans hs'
  · rintro ⟨taken, rest, ending, hreading, heffect, hends⟩
    rw [(scan_eq_iff distinct_specs).2 hreading]
    dsimp only
    rw [setAll_append (setAll_eq_iff.2 heffect)]
    cases rest with
    | nil =>
      rw [setAll]
      exact congrArg (Prod.mk s) (ends_nil_iff.1 hends)
    | cons o rest =>
      cases hends with
      | help => rfl
      | refused hf _ refusal => rw [setAll, if_neg hf, refusal]

/-- However a command line ends, it leaves settings that are in range: those it found, with the
options on top that it reads in front of the one that stops it. A server is run only if none does,
there is nothing else on the command line, and the root is a directory. -/
theorem command_line_effect (hstart : start.Valid) (isDirectory : Bytes → Bool) (program : Bytes)
    (args : List Bytes) : ∃ taken rest ending s verdict,
      (∀ r, Reading Flag.specs program args r ↔ r = ⟨taken ++ rest, ending⟩) ∧
      start.ofCommandLine isDirectory program args = (s, verdict) ∧
      s.Valid ∧ Effect start s taken ∧ Ends s isDirectory rest ending verdict ∧
      (verdict = .ok .run ↔
        rest = [] ∧ ending = .complete [] ∧ s.root ≠ [] ∧ isDirectory s.root = true) ∧
      ∀ others, (∀ f, others.filter (·.1 = f) = taken.filter (·.1 = f)) →
        start.setAll others = (s, none) := by
  rcases hresult : start.ofCommandLine isDirectory program args with ⟨s, verdict⟩
  obtain ⟨taken, rest, ending, hreading, heffect, hends⟩ := ofCommandLine_eq_iff.1 hresult
  have hunique : ∀ r, Reading Flag.specs program args r ↔ r = ⟨taken ++ rest, ending⟩ := fun r => by
    rw [← scan_eq_iff distinct_specs, (scan_eq_iff distinct_specs).2 hreading, eq_comm]
  have hvalid := setAll_valid hstart (setAll_eq_iff.2 heffect)
  exact ⟨taken, rest, ending, s, verdict, hunique, rfl, hvalid, heffect, hends, run_iff hends,
    fun others hothers => setAll_eq_iff.2 (heffect.perm hothers)⟩

theorem command_line_effect_refused : ({} : Settings).Valid ∧ ∃ taken rest ending,
    Reading Flag.specs (ascii "tftpffd") [ascii "-p70", ascii "up", ascii "--ret=9", ascii "-p",
      ascii "0", ascii "-t7"] ⟨taken ++ rest, ending⟩ ∧
    ({ port := 70, retries := 9 } : Settings).Valid ∧
    Effect {} { port := 70, retries := 9 } taken ∧
    Ends { port := 70, retries := 9 } (fun _ => true) rest ending
      (.error (.outOfRange (ascii "port") (ascii "0") 1 65535)) := by
  obtain ⟨taken, rest, ending, s, verdict, hreading, hv, hvalid, heffect, hends, -⟩ :=
    command_line_effect valid_default (fun _ => true) (ascii "tftpffd") [ascii "-p70", ascii "up",
      ascii "--ret=9", ascii "-p", ascii "0", ascii "-t7"]
  have hresult : ({} : Settings).ofCommandLine (fun _ => true) (ascii "tftpffd") [ascii "-p70",
      ascii "up", ascii "--ret=9", ascii "-p", ascii "0", ascii "-t7"] =
        ({ port := 70, retries := 9 },
          .error (.outOfRange (ascii "port") (ascii "0") 1 65535)) := by
    decide +kernel
  cases hv.symm.trans hresult
  exact ⟨valid_default, taken, rest, ending, (hreading _).2 rfl, hvalid, heffect, hends⟩

end Settings
end Tftp
