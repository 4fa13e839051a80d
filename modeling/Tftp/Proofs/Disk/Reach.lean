import Tftp.Proofs.Disk.Walk

namespace Tftp
namespace Disk
namespace Tree

/-- Follows names one after the other, and every link among them. -/
inductive Reaches (t : Tree) : Place → List Name → Place → Prop
  | done (p : Place) : Reaches t p [] p
  | stay {p q : Place} {name : Name} {rest : List Name} (dir : t.node? p = some .dir)
      (h : name = [] ∨ name = here) (next : Reaches t p rest q) : Reaches t p (name :: rest) q
  | up {p q : Place} {name : Name} {rest : List Name} (dir : t.node? p = some .dir)
      (h : name = above) (next : Reaches t p.dropLast rest q) : Reaches t p (name :: rest) q
  | down {p q : Place} {name : Name} {rest : List Name} (dir : t.node? p = some .dir)
      (proper : Proper name) (h : ∀ target, t.node? (p ++ [name]) ≠ some (.link target))
      (next : Reaches t (p ++ [name]) rest q) : Reaches t p (name :: rest) q
  | jump {p q : Place} {name : Name} {rest : List Name} {target : Bytes}
      (dir : t.node? p = some .dir) (proper : Proper name)
      (h : t.node? (p ++ [name]) = some (.link target))
      (next : Reaches t (linkStart p target) (Bytes.parts slash target ++ rest) q) :
      Reaches t p (name :: rest) q

variable {t : Tree} {p q : Place} {name : Name} {names : List Name}

theorem turn_long (dir : t.node? p = some .dir) (proper : Proper name)
    (long : maxName < name.length) : t.turn p name = .error .nameTooLong := by
  simp [turn, dir, proper.1, proper.2.1, proper.2.2, long]

theorem Reaches.walk (h : t.Reaches p names q) (links : Nat) :
    t.walk true links p names = .ok q ∨ t.walk true links p names = .error .loop ∨
      t.walk true links p names = .error .nameTooLong := by
  induction h generalizing links with
  | done p => exact .inl (walk_nil t links p)
  | stay dir h next ih =>
    rw [walk_cons, turn_eq_ok_iff.2 ⟨dir, .stay h⟩]
    exact ih links
  | up dir h next ih =>
    rw [walk_cons, turn_eq_ok_iff.2 ⟨dir, .up h⟩]
    exact ih links
  | @down p q name rest dir proper h next ih =>
    rw [walk_cons]
    rcases Nat.lt_or_ge maxName name.length with long | short
    · rw [turn_long dir proper long]
      exact .inr (.inr rfl)
    · rw [turn_eq_ok_iff.2 ⟨dir, .down proper short h⟩]
      exact ih links
  | @jump p q name rest target dir proper h next ih =>
    rw [walk_cons]
    rcases Nat.lt_or_ge maxName name.length with long | short
    · rw [turn_long dir proper long]
      exact .inr (.inr rfl)
    · rw [turn_eq_ok_iff.2 ⟨dir, .jump proper short h⟩]
      cases links with
      | zero => exact .inr (.inl rfl)
      | succ links => exact ih links

theorem reaches_of_walk {links : Nat} (h : t.walk true links p names = .ok q) :
    t.Reaches p names q := by
  induction links, names using walk_induct generalizing p with
  | nil links =>
    rw [walk_nil] at h
    cases h
    exact .done _
  | cons links name rest ih ihl =>
    rw [walk_cons] at h
    cases ht : t.turn p name with
    | error e => simp [ht] at h
    | ok r =>
      rw [ht] at h
      obtain ⟨dir, turns⟩ := turn_eq_ok_iff.1 ht
      cases turns with
      | stay hs => exact .stay dir hs (ih h)
      | up hu => exact .up dir hu (ih h)
      | down proper _ hd => exact .down dir proper hd (ih h)
      | jump proper _ hj =>
        cases links with
        | zero => cases h
        | succ links => exact .jump dir proper hj (ihl links _ rfl h)

theorem Reaches.append {r : Place} {xs ys : List Name} (h : t.Reaches p xs q)
    (h' : t.Reaches q ys r) : t.Reaches p (xs ++ ys) r := by
  induction h with
  | done p => exact h'
  | stay dir h next ih => exact .stay dir h (ih h')
  | up dir h next ih => exact .up dir h (ih h')
  | down dir proper h next ih => exact .down dir proper h (ih h')
  | @jump p q name rest target dir proper h next ih =>
    have hnext := ih h'
    rw [List.append_assoc] at hnext
    exact .jump dir proper h hnext

end Tree
end Disk
end Tftp
