import Mathlib.Tactic.Common
import Tftp.Disk.Lookup

namespace Tftp
namespace Disk
def Proper (n : Name) : Prop := n ≠ [] ∧ n ≠ here ∧ n ≠ above

namespace Tree

def linkStart (p : Place) (target : Bytes) : Place := if target.head? = some slash then [] else p

def turn (t : Tree) (p : Place) (name : Name) : Except Errno (Place ⊕ Bytes) :=
  match t.node? p with
  | none => .error .noEntry
  | some .dir =>
    if name = [] ∨ name = here then .ok (.inl p)
    else if name = above then .ok (.inl p.dropLast)
    else if name.length > maxName then .error .nameTooLong
    else
      match t.node? (p ++ [name]) with
      | some (.link target) => .ok (.inr target)
      | _ => .ok (.inl (p ++ [name]))
  | some _ => .error .notDirectory

variable {t t' : Tree} {links n : Nat} {p q : Place} {name : Name} {names xs ys rest : List Name}

theorem walkWith_cons (again : Place → List Name → Except Errno Place) :
    t.walkWith true again p (name :: rest) =
      match t.turn p name with
      | .error e => .error e
      | .ok (.inl q) => t.walkWith true again q rest
      | .ok (.inr target) => again (linkStart p target) (Bytes.parts slash target ++ rest) := by
  rw [walkWith, turn]
  cases t.node? p with
  | none => rfl
  | some n =>
    cases n with
    | dir =>
      dsimp only
      split
      · rfl
      · split
        · rfl
        · split
          · rfl
          · cases t.node? (p ++ [name]) with
            | none => rfl
            | some m => cases m <;> simp [linkStart]
    | file => rfl
    | link => rfl
    | device => rfl

@[simp] theorem walk_nil (t : Tree) (links : Nat) (p : Place) : t.walk true links p [] = .ok p := by
  cases links <;> rfl

theorem walk_cons : t.walk true links p (name :: rest) =
    match t.turn p name with
    | .error e => .error e
    | .ok (.inl q) => t.walk true links q rest
    | .ok (.inr target) =>
      match links with
      | 0 => .error .loop
      | n + 1 => t.walk true n (linkStart p target) (Bytes.parts slash target ++ rest) := by
  cases links <;> exact walkWith_cons _

theorem walk_induct {motive : Nat → List Name → Prop} (nil : ∀ links, motive links [])
    (cons : ∀ links name rest, motive links rest → (∀ n names, links = n + 1 → motive n names) →
      motive links (name :: rest)) (links : Nat) (names : List Name) : motive links names := by
  induction links generalizing names with
  | zero =>
    induction names with
    | nil => exact nil 0
    | cons name rest ih => exact cons 0 name rest ih fun n names h => by cases h
  | succ links ihl =>
    induction names with
    | nil => exact nil _
    | cons name rest ih =>
      refine cons _ name rest ih fun n names h => ?_
      cases h
      exact ihl names

theorem walk_append (h : t.walk true links p xs = .ok q) :
    ∃ n ≤ links, ∀ ys, t.walk true links p (xs ++ ys) = t.walk true n q ys := by
  induction links, xs using walk_induct generalizing p with
  | nil links =>
    rw [walk_nil] at h
    cases h
    exact ⟨links, Nat.le_refl _, fun ys => rfl⟩
  | cons links name rest ih ihl =>
    simp only [List.cons_append, walk_cons] at h ⊢
    cases ht : t.turn p name with
    | error e => simp [ht] at h
    | ok r =>
      rw [ht] at h
      cases r with
      | inl q => exact ih h
      | inr target =>
        cases links with
        | zero => cases h
        | succ links =>
          obtain ⟨n, hn, hw⟩ := ihl links _ rfl h
          exact ⟨n, Nat.le_succ_of_le hn, fun ys => by simpa using hw ys⟩

theorem walk_mono {r : Except Errno Place} (h : t.walk true links p names = r)
    (hr : r ≠ .error .loop) {m : Nat} (hm : links ≤ m) : t.walk true m p names = r := by
  induction links, names using walk_induct generalizing p m with
  | nil links => simpa using h
  | cons links name rest ih ihl =>
    rw [walk_cons] at h ⊢
    cases ht : t.turn p name with
    | error e => simpa [ht] using h
    | ok s =>
      rw [ht] at h
      cases s with
      | inl q => exact ih h hm
      | inr target =>
        cases links with
        | zero => exact absurd h.symm hr
        | succ links =>
          cases m with
          | zero => cases hm
          | succ m => exact ihl links _ rfl h (Nat.le_of_succ_le_succ hm)

def Leads (t : Tree) (links : Nat) (p : Place) (names : List Name) (q : Place) : Prop :=
  t.walk true links p names = .ok q ∧ t.node? q = some .dir

inductive Turns (t : Tree) (p : Place) (name : Name) : Place ⊕ Bytes → Prop
  | stay (h : name = [] ∨ name = here) : Turns t p name (.inl p)
  | up (h : name = above) : Turns t p name (.inl p.dropLast)
  | down (proper : Proper name) (short : name.length ≤ maxName)
      (h : ∀ target, t.node? (p ++ [name]) ≠ some (.link target)) :
      Turns t p name (.inl (p ++ [name]))
  | jump {target : Bytes} (proper : Proper name) (short : name.length ≤ maxName)
      (h : t.node? (p ++ [name]) = some (.link target)) : Turns t p name (.inr target)

theorem turn_eq_ok_iff {r : Place ⊕ Bytes} :
    t.turn p name = .ok r ↔ t.node? p = some .dir ∧ Turns t p name r := by
  constructor
  · intro h
    unfold turn at h
    split at h
    · cases h
    · rename_i hp
      refine ⟨hp, ?_⟩
      split at h
      · rename_i hs
        cases h
        exact .stay hs
      · rename_i hs
        split at h
        · rename_i ha
          cases h
          exact .up ha
        · rename_i ha
          have hproper : Proper name := ⟨fun h => hs (.inl h), fun h => hs (.inr h), ha⟩
          split at h
          · cases h
          · rename_i hl
            split at h
            · rename_i hq
              cases h
              exact .jump hproper (Nat.le_of_not_lt hl) hq
            · rename_i hq
              cases h
              exact .down hproper (Nat.le_of_not_lt hl) hq
    · cases h
  · rintro ⟨hp, h⟩
    cases h with
    | stay h => simp [turn, hp, h]
    | up h => simp [turn, hp, h, above, here]
    | down proper short h =>
      simp only [turn, hp, proper.1, proper.2.1, proper.2.2, Nat.not_lt_of_le short, or_self,
        if_false]
    | jump proper short h =>
      simp [turn, hp, proper.1, proper.2.1, proper.2.2, Nat.not_lt_of_le short, h]

theorem Leads.start (h : t.Leads links p names q) : t.node? p = some .dir := by
  obtain ⟨hw, hd⟩ := h
  cases names with
  | nil =>
    rw [walk_nil] at hw
    cases hw
    exact hd
  | cons name rest =>
    rw [walk_cons] at hw
    cases ht : t.turn p name with
    | error e => simp [ht] at hw
    | ok r => exact (turn_eq_ok_iff.1 ht).1

theorem Leads.prefix_leads (h : t.Leads links p (xs ++ ys) q) : ∃ r, t.Leads links p xs r := by
  induction links, xs using walk_induct generalizing p with
  | nil links => exact ⟨p, walk_nil t links p, h.start⟩
  | cons links name rest ih ihl =>
    obtain ⟨hw, hd⟩ := h
    simp only [Leads, List.cons_append, walk_cons] at hw ⊢
    cases ht : t.turn p name with
    | error e => simp [ht] at hw
    | ok r =>
      rw [ht] at hw
      cases r with
      | inl q => exact ih ⟨hw, hd⟩
      | inr target =>
        cases links with
        | zero => cases hw
        | succ links => exact ihl links _ rfl ⟨by rw [List.append_assoc]; exact hw, hd⟩

/-- A link that no walk to a directory passes. -/
def Dead (t : Tree) (p : Place) : Prop :=
  ∀ target, t.node? p = some (.link target) → ∀ links rest q,
    ¬t.Leads links (linkStart p.dropLast target) (Bytes.parts slash target ++ rest) q

theorem Leads.transport (dirs : ∀ r, t.node? r = some .dir → t'.node? r = some .dir)
    (follow : ∀ r target, t.node? r = some (.link target) →
      (∃ links rest q, t.Leads links (linkStart r.dropLast target)
        (Bytes.parts slash target ++ rest) q) → t'.node? r = some (.link target))
    (other : ∀ r target, t'.node? r = some (.link target) → t.node? r ≠ some .dir)
    {p : Place} (h : t.Leads links p names q) : t'.Leads links p names q := by
  induction links, names using walk_induct generalizing p with
  | nil links =>
    obtain ⟨hw, hd⟩ := h
    rw [walk_nil] at hw
    cases hw
    exact ⟨walk_nil t' links _, dirs _ hd⟩
  | cons links name rest ih ihl =>
    have hp := dirs _ h.start
    obtain ⟨hw, hd⟩ := h
    rw [walk_cons] at hw
    cases ht : t.turn p name with
    | error e => simp [ht] at hw
    | ok r =>
      rw [ht] at hw
      have same : Turns t' p name r → t'.Leads (links) p (name :: rest) q := by
        intro hr
        have ht' := turn_eq_ok_iff.2 ⟨hp, hr⟩
        rw [Leads, walk_cons, ht']
        cases r with
        | inl r => exact ih ⟨hw, hd⟩
        | inr target =>
          cases links with
          | zero => cases hw
          | succ links => exact ihl links _ rfl ⟨hw, hd⟩
      apply same
      cases (turn_eq_ok_iff.1 ht).2 with
      | stay h => exact .stay h
      | up h => exact .up h
      | down proper short h =>
        refine .down proper short fun target hq => ?_
        exact other _ target hq (Leads.start ⟨hw, hd⟩)
      | jump proper short h =>
        refine .jump proper short (follow _ _ h ?_)
        cases links with
        | zero => cases hw
        | succ links =>
          rw [List.dropLast_concat]
          exact ⟨links, rest, q, hw, hd⟩

theorem dead_of_walk {target : Bytes} (hl : t.node? p = some (.link target))
    (hloop : t.walk true n (linkStart p.dropLast target) (Bytes.parts slash target) ≠
      .error .loop)
    (hdir : ∀ q, t.walk true n (linkStart p.dropLast target) (Bytes.parts slash target) = .ok q →
      t.node? q ≠ some .dir) : t.Dead p := by
  intro target' hl' links rest q h
  cases hl.symm.trans hl'
  obtain ⟨r, hw, hd⟩ := h.prefix_leads
  have hmore := walk_mono hw (by nofun) (Nat.le_max_left links n)
  have hsame := walk_mono rfl hloop (Nat.le_max_right links n)
  exact hdir r (hsame.symm.trans hmore) hd

/-- A tree that has the directories of another one, no new links, and all links but some that led
to no directory. -/
structure Steady (t t' : Tree) : Prop where
  dirs : ∀ p, t'.node? p = some .dir ↔ t.node? p = some .dir
  old : ∀ p target, t'.node? p = some (.link target) → t.node? p = some (.link target)
  live : ∀ p target, t.node? p = some (.link target) →
    t'.node? p = some (.link target) ∨ t.Dead p
  cwd : t'.cwd = t.cwd

theorem Steady.leads (s : Steady t t') (h : t.Leads links p names q) :
    t'.Leads links p names q := by
  apply h.transport fun r => (s.dirs r).2
  · intro r target hl ⟨links, rest, q, h⟩
    rcases s.live r target hl with hl' | hdead
    · exact hl'
    · exact absurd h (hdead target hl links rest q)
  · intro r target hl hd
    cases (s.old r target hl).symm.trans hd

theorem Steady.leads_back (s : Steady t t') (h : t'.Leads links p names q) :
    t.Leads links p names q := by
  apply h.transport fun r => (s.dirs r).1
  · intro r target hl _
    exact s.old r target hl
  · intro r target hl hd
    cases hl.symm.trans ((s.dirs r).1 hd)

theorem Steady.dead (s : Steady t t') (h : t.Dead p) : t'.Dead p :=
  fun target hl links rest q hq => h target (s.old p target hl) links rest q (s.leads_back hq)

theorem Steady.refl (t : Tree) : Steady t t where
  dirs _ := .rfl
  old _ _ h := h
  live _ _ h := .inl h
  cwd := rfl

theorem Steady.trans {t'' : Tree} (s : Steady t t') (s' : Steady t' t'') : Steady t t'' where
  dirs p := (s'.dirs p).trans (s.dirs p)
  old p target h := s.old p target (s'.old p target h)
  live p target h := by
    rcases s.live p target h with h' | hdead
    · rcases s'.live p target h' with h'' | hdead
      · exact .inl h''
      · refine .inr fun target' hl links rest q hq => ?_
        cases h.symm.trans hl
        exact hdead target h' links rest q (s.leads hq)
    · exact .inr hdead
  cwd := s'.cwd.trans s.cwd

theorem findEntry_eq_ok_iff {text : Bytes} {last : LastName} :
    t.findEntry text = .ok (q, last) ↔ Bytes.untilNul text ≠ [] ∧
      (Bytes.untilNul text).length < maxPath ∧
        match (Bytes.parts slash (Bytes.untilNul text)).reverse.dropWhile (·.isEmpty) with
        | [] => q = [] ∧ last = .root
        | name :: before =>
          t.Leads maxLinks (t.origin (Bytes.untilNul text)) before.reverse q ∧
            last = .of name ((Bytes.untilNul text).getLast? == some slash) := by
  rw [findEntry]
  generalize Bytes.untilNul text = text
  by_cases he : text = []
  · simp [he]
  · by_cases hl : text.length < maxPath
    · rw [if_neg (by simpa using he), if_neg (Nat.not_le_of_lt hl)]
      simp only [he, hl, ne_eq, not_false_eq_true, true_and]
      generalize (Bytes.parts slash text).reverse.dropWhile (·.isEmpty) = names
      cases names with
      | nil => simp [eq_comm]
      | cons name before =>
        cases hw : t.walk true maxLinks (t.origin text) before.reverse with
        | error e => simp [Leads, hw]
        | ok p =>
          have hleads : t.Leads maxLinks (t.origin text) before.reverse q ↔
              p = q ∧ t.node? p = some .dir := by
            rw [Leads, hw, Except.ok.injEq]
            constructor <;> rintro ⟨rfl, hd⟩ <;> exact ⟨rfl, hd⟩
          dsimp only
          rw [hleads, hw]
          dsimp only
          cases hn : t.node? p with
          | none => simp
          | some m => cases m <;> simp [eq_comm]
    · rw [if_neg (by simpa using he), if_pos (Nat.le_of_not_lt hl)]
      simp [hl]

theorem Steady.findEntry (s : Steady t t') {text : Bytes} {last : LastName}
    (h : t.findEntry text = .ok (q, last)) : t'.findEntry text = .ok (q, last) := by
  have ho : t'.origin (Bytes.untilNul text) = t.origin (Bytes.untilNul text) := by
    rw [origin, origin, s.cwd]
  rw [findEntry_eq_ok_iff] at h ⊢
  rw [ho]
  refine ⟨h.1, h.2.1, ?_⟩
  have hm := h.2.2
  split at hm
  · exact hm
  · exact ⟨s.leads hm.1, hm.2⟩

end Tree
end Disk
end Tftp
