namespace Tftp

abbrev Bytes := List UInt8

def ascii (s : String) : Bytes := s.toList.map fun c => c.toNat.toUInt8

namespace Bytes

def lowerByte (b : UInt8) : UInt8 := if 65 ≤ b ∧ b ≤ 90 then b + 32 else b

def lower (bs : Bytes) : Bytes := bs.map lowerByte

def sameName (a b : Bytes) : Bool := lower a == lower b

def untilNul (bs : Bytes) : Bytes := bs.takeWhile (· != 0)

def cutField? (bs : Bytes) : Option (Bytes × Bytes) :=
  match bs.dropWhile (· != 0) with
  | [] => none
  | _ :: rest => some (untilNul bs, rest)

def field (bs : Bytes) : Bytes := bs ++ [0]

theorem cutField?_cons (b : UInt8) (bs : Bytes) :
    cutField? (b :: bs) =
      if b = 0 then some ([], bs) else (cutField? bs).map fun (f, rest) => (b :: f, rest) := by
  by_cases h : b = 0
  · simp [cutField?, untilNul, h]
  · simp only [cutField?, untilNul, h, List.dropWhile_cons, List.takeWhile_cons, bne_iff_ne, ne_eq,
      not_false_eq_true, if_true, if_false]
    split <;> rfl

theorem cutField?_eq_some_iff {bs f rest : Bytes} :
    cutField? bs = some (f, rest) ↔ bs = field f ++ rest ∧ 0 ∉ f := by
  induction bs generalizing f with
  | nil => simp [cutField?, field]
  | cons b bs ih =>
    rw [cutField?_cons]
    by_cases h : b = 0
    · subst h
      cases f <;> simp [field]
      grind
    · cases f with
      | nil => simp [field, h]
      | cons x f =>
        simp only [h, if_false, Option.map_eq_some_iff, Prod.exists, Prod.mk.injEq]
        grind [field]

def consField (b : UInt8) : Option (List Bytes) → Option (List Bytes)
  | none => none
  | some [] => if b = 0 then some [[]] else none
  | some (f :: fs) => some (if b = 0 then [] :: f :: fs else (b :: f) :: fs)

def fields? (bs : Bytes) : Option (List Bytes) := bs.foldr consField (some [])

@[simp] theorem fields?_nil : fields? [] = some [] := rfl

@[simp] theorem fields?_cons (b : UInt8) (bs : Bytes) :
    fields? (b :: bs) = consField b (fields? bs) := rfl

theorem fields?_field_append {f : Bytes} (h : 0 ∉ f) (bs : Bytes) :
    fields? (field f ++ bs) = (fields? bs).map (f :: ·) := by
  induction f with
  | nil => rcases h : fields? bs with _ | _ | _ <;> simp [field, consField, h]
  | cons b f ih =>
    simp only [List.mem_cons, not_or] at h
    have ih := ih h.2
    simp only [field, List.append_assoc, List.singleton_append] at ih
    rcases h' : fields? bs with _ | _ <;> simp [field, consField, ih, h', Ne.symm h.1]

theorem fields?_flatMap {fs : List Bytes} (h : ∀ f ∈ fs, 0 ∉ f) :
    fields? (fs.flatMap field) = some fs := by
  induction fs with
  | nil => rfl
  | cons f fs ih =>
    simp only [List.mem_cons, forall_eq_or_imp] at h
    simp [fields?_field_append h.1, ih h.2]

theorem eq_of_fields? {bs : Bytes} {fs : List Bytes} (h : fields? bs = some fs) :
    bs = fs.flatMap field ∧ ∀ f ∈ fs, 0 ∉ f := by
  induction bs generalizing fs with
  | nil => cases h; simp
  | cons b bs ih =>
    rw [fields?_cons] at h
    rcases h' : fields? bs with _ | _ | ⟨f, gs⟩ <;> rw [h'] at h
    · simp [consField] at h
    · obtain ⟨rfl, _⟩ := ih h'
      by_cases hb : b = 0
      · obtain rfl : [[]] = fs := by simpa [consField, hb] using h
        simp [field, hb]
      · simp [consField, hb] at h
    · obtain ⟨rfl, hg⟩ := ih h'
      by_cases hb : b = 0
      · obtain rfl : [] :: f :: gs = fs := by simpa [consField, hb] using h
        simpa [field, hb] using hg
      · obtain rfl : (b :: f) :: gs = fs := by simpa [consField, hb] using h
        simpa [field, Ne.symm hb] using hg

theorem fields?_eq_some_iff {bs : Bytes} {fs : List Bytes} :
    fields? bs = some fs ↔ bs = fs.flatMap field ∧ ∀ f ∈ fs, 0 ∉ f :=
  ⟨eq_of_fields?, fun ⟨h, h'⟩ => h ▸ fields?_flatMap h'⟩

def ofWord (n : UInt16) : Bytes := [(n / 256).toUInt8, n.toUInt8]

def word (hi lo : UInt8) : UInt16 := hi.toUInt16 * 256 + lo.toUInt16

@[simp] theorem word_ofWord (n : UInt16) : word (n / 256).toUInt8 n.toUInt8 = n := by
  apply UInt16.toNat_inj.1
  have := n.toNat_lt
  simp [word, UInt16.toNat_div, UInt16.toNat_add, UInt16.toNat_mul]
  omega

@[simp] theorem ofWord_word (hi lo : UInt8) : ofWord (word hi lo) = [hi, lo] := by
  have := hi.toNat_lt
  have := lo.toNat_lt
  simp only [ofWord, List.cons.injEq, and_true]
  constructor
  · apply UInt8.toNat_inj.1
    simp [word]
    omega
  · apply UInt8.toNat_inj.1
    simp [word]

def splitStep (sep b : UInt8) : Bytes × List Bytes → Bytes × List Bytes
  | (part, others) => if b = sep then ([], part :: others) else (b :: part, others)

def splitOn (sep : UInt8) (bs : Bytes) : Bytes × List Bytes := bs.foldr (splitStep sep) ([], [])

@[simp] theorem splitOn_nil (sep : UInt8) : splitOn sep [] = ([], []) := rfl

@[simp] theorem splitOn_cons (sep b : UInt8) (bs : Bytes) :
    splitOn sep (b :: bs) = splitStep sep b (splitOn sep bs) := rfl

def parts (sep : UInt8) (bs : Bytes) : List Bytes := (splitOn sep bs).1 :: (splitOn sep bs).2

end Bytes
end Tftp
