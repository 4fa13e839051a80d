import Tftp.Proofs.Disk.PathText
import Tftp.Proofs.Disk.Reading
import Tftp.Proofs.Disk.WellFormed
import Tftp.Server

namespace Tftp
namespace Disk
namespace Tree

variable {t : Tree} {text dir : Bytes} {gap : Nat} {x y : Name} {p q : Place}

theorem find_eq (h0 : 0 ∉ text) (hne : text ≠ []) (hl : text.length < maxPath) :
    t.find true text = t.walk true maxLinks (t.origin text) (Bytes.parts slash text) := by
  simp only [find, Bytes.untilNul_eq h0]
  rw [if_neg (by simpa using hne), if_neg (Nat.not_le_of_lt hl)]

theorem find_long (h0 : 0 ∉ text) (hl : maxPath ≤ text.length) :
    t.find true text = .error .nameTooLong := by
  have hne : text ≠ [] := by
    rintro rfl
    cases hl
  simp only [find, Bytes.untilNul_eq h0]
  rw [if_neg (by simpa using hne), if_pos hl]

theorem status_eq_found_iff {n : Node} :
    t.status text = .found q n ↔ t.find true text = .ok q ∧ t.node? q = some n := by
  rw [status]
  cases t.find true text with
  | error e => cases e <;> simp
  | ok p =>
    dsimp only
    cases hp : t.node? p with
    | none =>
      simp only [reduceCtorEq, Except.ok.injEq, false_iff, not_and]
      rintro rfl
      simp [hp]
    | some m =>
      simp only [Status.found.injEq, Except.ok.injEq]
      constructor
      · rintro ⟨rfl, rfl⟩
        exact ⟨rfl, hp⟩
      · rintro ⟨rfl, h⟩
        exact ⟨rfl, Option.some.inj (hp.symm.trans h)⟩

theorem isDirectory_iff :
    t.isDirectory text ↔ ∃ q, t.find true text = .ok q ∧ t.node? q = some .dir := by
  have hs : t.isDirectory text ↔ ∃ q, t.status text = .found q .dir := by
    unfold isDirectory
    split
    · rename_i q hq
      simp [hq]
    · rename_i hn
      simp only [Bool.false_eq_true, false_iff, not_exists]
      exact hn
  simp only [hs, status_eq_found_iff]

theorem length_of_find (h0 : 0 ∉ text) (hf : t.find true text ≠ .error .nameTooLong) :
    text.length < maxPath := by
  by_contra hl
  exact hf (find_long h0 (Nat.le_of_not_lt hl))

theorem node?_of_missing (hs : t.status text = .missing) (hf : t.find true text = .ok q) :
    t.node? q = none := by
  cases hn : t.node? q with
  | none => rfl
  | some n =>
    rw [status_eq_found_iff.2 ⟨hf, hn⟩] at hs
    cases hs

theorem find_of_known (hs : ∀ e, t.status text ≠ .unknown e) :
    t.find true text ≠ .error .loop ∧ t.find true text ≠ .error .nameTooLong := by
  constructor <;> intro hf <;> exact hs _ (by rw [status, hf])

end Tree

variable {t : Tree} {text dir : Bytes} {gap : Nat} {x y : Name} {p q : Place}

theorem Split.mem_of_mem_dir (h : Split text dir gap x) {b : UInt8} (hb : b ∈ dir) : b ∈ text := by
  rw [h.text]
  exact List.mem_append_left _ hb

theorem Split.mem_of_mem_name (h : Split text dir gap x) {b : UInt8} (hb : b ∈ x) : b ∈ text := by
  rw [h.text]
  simp [hb]

theorem Split.origin (h : Split text dir gap x) (other : Bytes) :
    t.origin (dir ++ slash :: other) = t.origin text := by
  have hhead : (dir ++ slash :: other).head? = text.head? := by
    rw [h.text]
    cases dir <;> rfl
  rw [Tree.origin, Tree.origin, hhead]

theorem Split.leads (h : Split text dir gap x) (h0 : 0 ∉ text)
    (hd : t.isDirectory (Disk.parent text)) :
    ∃ q, t.Leads maxLinks (t.origin text) (Bytes.parts slash dir) q := by
  obtain ⟨q, hf, hq⟩ := Tree.isDirectory_iff.1 hd
  rw [h.parent] at hf
  split at hf
  · rename_i hdir
    subst hdir
    have ho : t.origin text = [] := by
      rw [Tree.origin, h.text]
      rfl
    refine ⟨[], ?_, rfl⟩
    rw [ho]
    rfl
  · rename_i hne
    have h0' : 0 ∉ dir := fun hb => h0 (h.mem_of_mem_dir hb)
    have hl : dir.length < maxPath := by
      by_contra hl
      simp [Tree.find_long h0' (Nat.le_of_not_lt hl)] at hf
    have ho : t.origin dir = t.origin text := by
      rw [Tree.origin, Tree.origin, h.text]
      cases dir with
      | nil => exact absurd rfl hne
      | cons b dir => rfl
    rw [Tree.find_eq h0' hne hl, ho] at hf
    exact ⟨q, hf, hq⟩

theorem Tree.walk_empties (hq : t.node? q = some .dir) (links n : Nat) (names : List Name) :
    t.walk true links q (List.replicate n [] ++ names) = t.walk true links q names := by
  induction n with
  | zero => rfl
  | succ n ih =>
    have ht : t.turn q [] = .ok (.inl q) := Tree.turn_eq_ok_iff.2 ⟨hq, .stay (.inl rfl)⟩
    rw [List.replicate_succ, List.cons_append, Tree.walk_cons, ht]
    exact ih

theorem Split.walk (h : Split text dir gap x)
    (hd : t.Leads maxLinks (t.origin text) (Bytes.parts slash dir) q) :
    ∃ n, (∀ y, t.walk true maxLinks (t.origin text) (Bytes.parts slash dir ++ [y]) =
        t.walk true n q [y]) ∧
      t.walk true maxLinks (t.origin text) (Bytes.parts slash text) = t.walk true n q [x] ∧
        t.walk true maxLinks (t.origin text)
          (Bytes.parts slash dir ++ List.replicate gap []) = .ok q := by
  obtain ⟨n, _, hn⟩ := Tree.walk_append hd.1
  refine ⟨n, fun y => hn [y], ?_, ?_⟩
  · rw [h.parts, hn, Tree.walk_empties hd.2]
  · have he := Tree.walk_empties hd.2 n gap []
    rw [List.append_nil] at he
    rw [hn, he, Tree.walk_nil]

theorem Split.ne_nil (h : Split text dir gap x) : text ≠ [] := by
  rw [h.text]
  simp

theorem Split.findEntry (h : Split text dir gap x) (h0 : 0 ∉ text) (hl : text.length < maxPath)
    (hx : Proper x) (hd : t.Leads maxLinks (t.origin text) (Bytes.parts slash dir) q) :
    t.findEntry text = .ok (q, .name x false) := by
  have hparts : (Bytes.parts slash text).reverse.dropWhile (·.isEmpty) =
      x :: (List.replicate gap [] ++ (Bytes.parts slash dir).reverse) := by
    have hne : x.isEmpty = false := by simpa using hx.1
    rw [h.parts]
    simp [hne]
  have hlast : (text.getLast? == some slash) = false := by
    have hlast : text.getLast? = x.getLast? := by
      obtain ⟨b, l, rfl⟩ := List.exists_cons_of_ne_nil hx.1
      rw [h.text]
      simp [List.getLast?_append, List.getLast?_cons]
    rw [hlast, beq_eq_false_iff_ne]
    intro hs
    exact h.name (List.mem_of_getLast? hs)
  obtain ⟨n, _, _, hw⟩ := h.walk hd
  rw [Tree.findEntry_eq_ok_iff, Bytes.untilNul_eq h0, hparts, hlast]
  refine ⟨h.ne_nil, hl, ⟨?_, hd.2⟩, ?_⟩
  · simpa using hw
  · simp [Tree.LastName.of, hx.2.1, hx.2.2]

theorem Split.aim (h : Split text dir gap x) (wf : t.WellFormed) (h0 : 0 ∉ text)
    (hs : ∀ e, t.status text ≠ .unknown e) (hnone : ∀ q, t.status text ≠ .found q .dir)
    (hd : t.Leads maxLinks (t.origin text) (Bytes.parts slash dir) q) :
    Proper x ∧ x.length ≤ maxName ∧ t.Dead (q ++ [x]) ∧ t.node? (q ++ [x]) ≠ some .dir ∧
      ((∀ target, t.node? (q ++ [x]) ≠ some (.link target)) →
        t.find true text = .ok (q ++ [x])) := by
  obtain ⟨hloop, hlong⟩ := Tree.find_of_known hs
  have hl := Tree.length_of_find h0 hlong
  have hnodir : ∀ r, t.find true text = .ok r → t.node? r ≠ some .dir := fun r hf hn =>
    hnone r (Tree.status_eq_found_iff.2 ⟨hf, hn⟩)
  obtain ⟨n, _, hw, _⟩ := h.walk hd
  have hfind : t.find true text = t.walk true n q [x] := by rw [Tree.find_eq h0 h.ne_nil hl, hw]
  rw [hfind, Tree.walk_cons] at hloop hlong hnodir
  cases ht : t.turn q x with
  | error e =>
    rw [ht] at hlong
    unfold Tree.turn at ht
    rw [hd.2] at ht
    dsimp only at ht
    split at ht
    · cases ht
    · split at ht
      · cases ht
      · split at ht
        · cases ht
          exact absurd rfl hlong
        · split at ht <;> cases ht
  | ok r =>
    rw [ht] at hloop hnodir
    cases (Tree.turn_eq_ok_iff.1 ht).2 with
    | stay _ => exact absurd hd.2 (hnodir q (Tree.walk_nil t n q))
    | up _ => exact absurd (wf.up hd.2) (hnodir q.dropLast (Tree.walk_nil t n _))
    | down proper short hlink =>
      refine ⟨proper, short, fun target hl => absurd hl (hlink target),
        hnodir (q ++ [x]) (Tree.walk_nil t n _), fun _ => ?_⟩
      rw [hfind, Tree.walk_cons, ht]
      exact Tree.walk_nil t n _
    | @jump target proper short hlink =>
      cases n with
      | zero => exact absurd rfl hloop
      | succ n =>
        refine ⟨proper, short, ?_, by simp [hlink], fun hn => absurd hlink (hn target)⟩
        dsimp only at hloop hnodir
        rw [List.append_nil] at hloop hnodir
        apply Tree.dead_of_walk (n := n) hlink
        · rwa [List.dropLast_concat]
        · intro r hr
          rw [List.dropLast_concat] at hr
          exact hnodir r hr

theorem Split.find (h : Split text dir gap x) (h0 : 0 ∉ text) (hx : Proper x)
    (hd : t.Leads maxLinks (t.origin text) (Bytes.parts slash dir) q)
    (hn : ∀ target, t.node? (q ++ [x]) ≠ some (.link target)) :
    text.length < maxPath ∧ x.length ≤ maxName ∧ t.find true text = .ok (q ++ [x]) ∨
      t.find true text = .error .nameTooLong ∧ ∃ e, t.remove text = .error e := by
  by_cases hl : text.length < maxPath
  · obtain ⟨n, _, hw, _⟩ := h.walk hd
    rw [Tree.find_eq h0 h.ne_nil hl, hw, Tree.walk_cons]
    by_cases hs : x.length ≤ maxName
    · have ht : t.turn q x = .ok (.inl (q ++ [x])) :=
        Tree.turn_eq_ok_iff.2 ⟨hd.2, .down hx hs hn⟩
      rw [ht]
      exact .inl ⟨hl, hs, Tree.walk_nil t n _⟩
    · have ht : t.turn q x = .error .nameTooLong := by
        simp [Tree.turn, hd.2, hx.1, hx.2.1, hx.2.2, Nat.lt_of_not_le hs]
      rw [ht]
      refine .inr ⟨rfl, .nameTooLong, ?_⟩
      rw [Tree.remove, h.findEntry h0 hl hx hd]
      simp [Tree.child, Nat.lt_of_not_le hs, Except.bind]
  · have hlong := Nat.le_of_not_lt hl
    refine .inr ⟨Tree.find_long h0 hlong, .nameTooLong, ?_⟩
    have he : t.findEntry text = .error .nameTooLong := by
      simp only [Tree.findEntry, Bytes.untilNul_eq h0]
      rw [if_neg (by simpa using h.ne_nil), if_pos hlong]
    rw [Tree.remove, he]

theorem Split.openStaging (h : Split text dir gap x) (h0 : 0 ∉ text) (hx : Proper x)
    (hd : t.Leads maxLinks (t.origin text) (Bytes.parts slash dir) q)
    (hn : t.node? (q ++ [x]) = none) (path : Bytes) :
    (∃ e, Served.openStaging t true path text = (.error e, t)) ∨
      text.length < maxPath ∧ x.length ≤ maxName ∧
        Served.openStaging t true path text =
          (.ok { sink := .file t.serial }, t.addFile (q ++ [x])) := by
  rcases h.find h0 hx hd (by simp [hn]) with ⟨hl, hs, hf⟩ | ⟨hf, e, hr⟩
  · refine .inr ⟨hl, hs, ?_⟩
    simp [Served.openStaging, Writer.openAt, Tree.create, hf, hn]
  · refine .inl ⟨.cannotCreate path, ?_⟩
    simp only [Served.openStaging, Writer.openAt, Tree.create, hf, hr]
    rfl

theorem Split.copyStaging (h : Split text dir gap x) (h0 : 0 ∉ text) (hx : Proper x)
    (hd : t.Leads maxLinks (t.origin text) (Bytes.parts slash dir) q)
    (hn : t.node? (q ++ [x]) = none) (path : Bytes) (k : Nat) (c : Content) :
    (∃ e, t.copyFile k c text = .error e) ∨
      text.length < maxPath ∧ x.length ≤ maxName ∧
        t.copyFile k c text = .ok ((t.addFile (q ++ [x])).setContent t.serial c) ∧
        Served.openStaging ((t.addFile (q ++ [x])).setContent t.serial c) false path text =
          (.ok { sink := .file t.serial, append := true },
            (t.addFile (q ++ [x])).setContent t.serial c) := by
  rcases h.find h0 hx hd (by simp [hn]) with ⟨hl, hs, hf⟩ | ⟨hf, _⟩
  · refine .inr ⟨hl, hs, ?_, ?_⟩
    · simp [Tree.copyFile, Tree.status, Tree.writeFile, Tree.create, hf, hn]
    · have hne : q ++ [x] ≠ [] := by simp
      let made := (t.addFile (q ++ [x])).setContent t.serial c
      have hnode : made.node? (q ++ [x]) = some (.file t.serial c) := by
        simp [made, Tree.setContent, Tree.node?_modify, Tree.node?_addFile hne, Node.modify]
      have hd' : made.Leads maxLinks (made.origin text) (Bytes.parts slash dir) q :=
        (Tree.steady_modify _ _ _).leads ((Tree.steady_addFile hne hn).leads hd)
      rcases h.find h0 hx hd' (by simp [hnode]) with ⟨_, _, hf'⟩ | ⟨_, e, hr⟩
      · change Served.openStaging made false path text = _
        simp [Served.openStaging, Writer.openAt, Tree.create, hf', hnode, made]
      · have hlong := h.findEntry h0 hl hx hd'
        rw [Tree.remove, hlong] at hr
        simp [Tree.child, Nat.not_lt_of_le hs, Except.bind, Tree.removeChild, hnode] at hr
  · refine .inl ⟨.nameTooLong, ?_⟩
    simp [Tree.copyFile, Tree.status, hf]

theorem Split.lastName? (h : Split text dir gap x) (h0 : 0 ∉ text) (hx : x ≠ []) :
    lastName? text = some x := by
  have hne : x.isEmpty = false := by simpa using hx
  rw [Disk.lastName?, Bytes.untilNul_eq h0, h.parts]
  simp [hne]

theorem Tree.LastName.of_eq_name_iff {x y : Name} {trailing mark : Bool} :
    Tree.LastName.of y trailing = .name x mark ↔
      y ≠ Disk.here ∧ y ≠ Disk.above ∧ y = x ∧ trailing = mark := by
  unfold Tree.LastName.of
  split
  · simp [*]
  · split <;> simp [*]

theorem Tree.lastName?_of_findEntry {n : Name} {trailing : Bool}
    (h : t.findEntry text = .ok (q, .name n trailing)) : lastName? text = some n := by
  have hm := (Tree.findEntry_eq_ok_iff.1 h).2.2
  rw [Disk.lastName?]
  split at hm
  · cases hm.2
  · rename_i name before hd
    obtain ⟨_, _, rfl, _⟩ := Tree.LastName.of_eq_name_iff.1 hm.2.symm
    rw [hd]
    rfl

theorem Tree.find_of_findEntry {t : Tree} {text : Bytes} {p : Place} {x : Name}
    (he : t.findEntry text = .ok (p, .name x false)) (hx : x.length ≤ maxName)
    (hn : ∀ target, t.node? (p ++ [x]) ≠ some (.link target)) :
    t.find true text = .ok (p ++ [x]) := by
  obtain ⟨hne, hlength, hm⟩ := findEntry_eq_ok_iff.1 he
  have hfind : t.find true text = t.walk true maxLinks (t.origin (Bytes.untilNul text))
      (Bytes.parts slash (Bytes.untilNul text)) := by
    simp only [find]
    rw [if_neg (by simpa using hne), if_neg (Nat.not_le_of_lt hlength)]
  rw [hfind]
  generalize Bytes.untilNul text = text at hne hm
  split at hm
  · cases hm.2
  · rename_i y before hparts
    obtain ⟨⟨hw, hd⟩, hlast⟩ := hm
    obtain ⟨hhere, habove, rfl, htrailing⟩ := LastName.of_eq_name_iff.1 hlast.symm
    obtain ⟨init, z, heq, hz⟩ := exists_last_part hne (by simpa using htrailing)
    have hempty : z.isEmpty = false := by simpa using hz
    rw [heq] at hparts ⊢
    simp only [List.reverse_append, List.reverse_singleton, List.singleton_append,
      List.dropWhile_cons, hempty, Bool.false_eq_true, if_false] at hparts
    cases hparts
    rw [List.reverse_reverse] at hw
    obtain ⟨n, _, hmore⟩ := walk_append hw
    have hturn : t.turn p y = .ok (.inl (p ++ [y])) :=
      turn_eq_ok_iff.2 ⟨hd, .down ⟨hz, hhere, habove⟩ hx hn⟩
    rw [hmore, walk_cons, hturn]
    exact walk_nil t n _

namespace Served

theorem mem_text {p : Place} {b : UInt8} (hb : b ∈ Place.text p) : b = slash ∨ ∃ n ∈ p, b ∈ n := by
  cases p with
  | nil => exact .inl (List.mem_singleton.1 hb)
  | cons n p =>
    obtain ⟨m, hm, hb⟩ := List.mem_flatMap.1 hb
    rcases List.mem_cons.1 hb with hb | hb
    · exact .inl hb
    · exact .inr ⟨m, hm, hb⟩

theorem slash_mem_text (p : Place) : slash ∈ Place.text p := by
  cases p with
  | nil => exact List.mem_singleton_self slash
  | cons n p => exact List.mem_flatMap.2 ⟨n, List.mem_cons_self, List.mem_cons_self⟩

theorem names_extend (p : Path) (names : List Name) : ∃ kept pushed,
    (p.extend names).names = kept ++ pushed ∧ kept <+: p.names ∧
      ∀ n ∈ pushed, Proper n ∧ n ∈ names := by
  induction names generalizing p with
  | nil => exact ⟨p.names, [], (List.append_nil _).symm, List.prefix_rfl, nofun⟩
  | cons name names ih =>
    obtain ⟨kept, pushed, heq, hkept, hpushed⟩ := ih (p.descend name)
    have hpushed' : ∀ n ∈ pushed, Proper n ∧ n ∈ name :: names := fun n hn =>
      ⟨(hpushed n hn).1, List.mem_cons_of_mem _ (hpushed n hn).2⟩
    change ((p.descend name).extend names).names = _ at heq
    unfold Path.descend at hkept
    split at hkept
    · exact ⟨kept, pushed, heq, hkept, hpushed'⟩
    · rename_i hs
      split at hkept
      · exact ⟨kept, pushed, heq, hkept.trans (List.dropLast_prefix _), hpushed'⟩
      · rename_i ha
        rcases List.prefix_concat_iff.1 hkept with rfl | hkept
        · refine ⟨p.names, name :: pushed, ?_, List.prefix_rfl, fun n hn => ?_⟩
          · change ((p.descend name).extend names).names = _
            simpa using heq
          · rcases List.mem_cons.1 hn with rfl | hn
            · exact ⟨⟨fun h => hs (.inl h), fun h => hs (.inr h), ha⟩, List.mem_cons_self⟩
            · exact hpushed' n hn
        · exact ⟨kept, pushed, heq, hkept, hpushed'⟩

theorem mem_names_extend {names : List Name} {p : Path} {n : Name}
    (hn : n ∈ (p.extend names).names) : n ∈ p.names ∨ Proper n ∧ n ∈ names := by
  obtain ⟨kept, pushed, heq, hkept, hpushed⟩ := names_extend p names
  rw [heq] at hn
  exact (List.mem_append.1 hn).imp (hkept.subset ·) (hpushed n)

theorem mem_text_of_resolve {s : Served} {name : Bytes} {p : Path} (h : s.resolve name = .ok p)
    {b : UInt8} (hb : b ∈ p.text) : b = slash ∨ b ∈ name ∨ ∃ n ∈ s.root, b ∈ n := by
  unfold resolve at h
  dsimp only at h
  split at h
  · cases h
  · split at h
    · cases h
    · split at h
      · cases h
      · split at h
        · cases h
          rcases mem_text hb with hb | ⟨n, hn, hb⟩
          · exact .inl hb
          · have hn : n ∈ (Path.extend ⟨s.root, false⟩
                (Bytes.parts slash (name.dropWhile (· == slash)))).names := by
              unfold Path.elements at hn
              split at hn
              · rcases List.mem_append.1 hn with hn | hn
                · exact hn
                · rw [List.mem_singleton.1 hn] at hb
                  cases hb
              · exact hn
            rcases mem_names_extend hn with hn | ⟨_, hn⟩
            · exact .inr (.inr ⟨n, hn, hb⟩)
            · exact .inr (.inl ((List.dropWhile_sublist _).subset (Bytes.mem_of_mem_parts hn hb)))
        · cases h

theorem resolve_ok {s : Served} {name : Bytes} {p : Path} (h : s.resolve name = .ok p)
    (h0 : 0 ∉ name) (hroot : ∀ n ∈ s.root, 0 ∉ n) :
    0 ∉ p.text ∧ ∀ e, s.tree.status p.text ≠ .unknown e := by
  constructor
  · intro hb
    rcases mem_text_of_resolve h hb with hb | hb | ⟨n, hn, hb⟩
    · revert hb
      decide
    · exact h0 hb
    · exact hroot n hn hb
  · unfold resolve at h
    dsimp only at h
    split at h
    · cases h
    · split at h
      · cases h
      · split at h
        · cases h
        · rename_i real hreal
          split at h
          · cases h
            intro e he
            simp [Tree.weaklyCanonical, he] at hreal
          · cases h

theorem of_openAt {tree : Tree} {root : Bytes} {overwrite : Bool} {tags : Nat → Bytes}
    {faults : Faults} {served : Served} (h : openAt tree root overwrite tags faults = .ok served) :
    ∃ place, tree.node? place = some .dir ∧ served =
      { tree := tree, root := place, overwrite := overwrite, faults := faults, tags := tags } := by
  unfold openAt at h
  split at h
  · rename_i place hs
    split at h
    · cases h
      exact ⟨place, (Tree.status_eq_found_iff.1 hs).2, rfl⟩
    · cases h
  · cases h

/-- The next staging file has a name that nothing in the tree has. -/
def Fresh (s : Served) : Prop :=
  ∀ p x, s.tree.node? p ≠ none → p.getLast? ≠ some (stagingLast x (s.tags s.drawn))

def Vacant (s : Served) (path : Bytes) : Prop :=
  ∀ p x, s.tree.findEntry path = .ok (p, .name x false) →
    s.tree.node? (p ++ [stagingLast x (s.tags s.drawn)]) = none

theorem Fresh.vacant {s : Served} (h : s.Fresh) (path : Bytes) : s.Vacant path := by
  intro p x _
  by_contra hne
  exact h _ x hne List.getLast?_concat

structure Opened (s : Served) (path : Bytes) (p : Place) (x : Name) : Prop where
  dir : s.tree.node? p = some .dir
  entry : s.tree.findEntry path = .ok (p, .name x false)
  proper : Proper x
  short : x.length ≤ maxName
  dead : s.tree.Dead (p ++ [x])
  spared : s.tree.node? (p ++ [x]) ≠ some .dir
  allowed : s.tree.status path = .missing ∨
    s.overwrite = true ∧ ∃ q k c, s.tree.status path = .found q (.file k c)
  found : (∀ target, s.tree.node? (p ++ [x]) ≠ some (.link target)) →
    s.tree.find true path = .ok (p ++ [x])
  free : s.tree.node? (p ++ [stagingLast x (s.tags s.drawn)]) = none
  plain : 0 ∉ stagingLast x (s.tags s.drawn)
  last : lastName? (stagingName path (s.tags s.drawn)) = some (stagingLast x (s.tags s.drawn))
  staged : s.tree.findEntry (stagingName path (s.tags s.drawn)) =
    .ok (p, .name (stagingLast x (s.tags s.drawn)) false)
  stagedShort : (stagingLast x (s.tags s.drawn)).length ≤ maxName

def base (s : Served) (truncate : Bool) (path : Bytes) : Bytes :=
  match truncate, s.tree.status path with
  | false, .found _ (.file _ c) => c.toList
  | _, _ => []

/-- The staging file of an upload that was opened, and who writes to it: it is empty, or a copy of a
target that is to be kept. -/
inductive Made (s : Served) (truncate : Bool) (path : Bytes) (p : Place) : Writer → Tree → Prop
  | empty (bare : s.base truncate path = []) :
    Made s truncate path p { sink := .file s.tree.serial } (s.tree.addFile p)
  | copy {q : Place} {k : Nat} {c : Content} (keep : truncate = false)
    (found : s.tree.status path = .found q (.file k c)) :
    Made s truncate path p { sink := .file s.tree.serial, append := true }
      ((s.tree.addFile p).setContent s.tree.serial c)

variable {s : Served} {path : Bytes} {truncate : Bool}

theorem base_eq_nil
    (h : ∀ q k c, truncate = false → s.tree.status path = .found q (.file k c) → False) :
    s.base truncate path = [] := by
  unfold base
  split
  · rename_i hs
    exact (h _ _ _ rfl hs).elim
  · rfl

theorem status_of_refusal (hr : s.refusal? path = none)
    (hstatus : ∀ e, s.tree.status path ≠ .unknown e) : s.tree.status path = .missing ∨
      s.overwrite = true ∧ ∃ q k c, s.tree.status path = .found q (.file k c) := by
  unfold refusal? at hr
  cases hs : s.tree.status path with
  | missing => exact .inl rfl
  | unknown e => exact absurd hs (hstatus e)
  | found q n =>
    cases ho : s.overwrite with
    | false => simp [hs, ho] at hr
    | true =>
      cases n with
      | file k c => exact .inr ⟨rfl, q, k, c, rfl⟩
      | dir | link | device => simp [hs, ho] at hr

theorem stage_cases (truncate : Bool) (h : Split path dir gap x)
    (h0 : 0 ∉ stagingName path (s.tags s.drawn))
    (htag : slash ∉ s.tags s.drawn)
    (hd : s.tree.Leads maxLinks (s.tree.origin path) (Bytes.parts slash dir) p)
    (hn : s.tree.node? (p ++ [stagingLast x (s.tags s.drawn)]) = none) :
    (∃ e, s.stage truncate path (stagingName path (s.tags s.drawn)) = (.error e, s.tree)) ∨
      (stagingName path (s.tags s.drawn)).length < maxPath ∧
        (stagingLast x (s.tags s.drawn)).length ≤ maxName ∧
          ∃ w t, s.stage truncate path (stagingName path (s.tags s.drawn)) = (.ok w, t) ∧
            Made s truncate path (p ++ [stagingLast x (s.tags s.drawn)]) w t := by
  have hstaging := h.staging htag
  have hproper := proper_stagingLast x (s.tags s.drawn)
  have hd' : s.tree.Leads maxLinks (s.tree.origin (stagingName path (s.tags s.drawn)))
      (Bytes.parts slash dir) p := by
    rw [h.stagingName, h.origin]
    exact hd
  unfold stage
  split
  · rename_i k c hs
    rcases hstaging.copyStaging h0 hproper hd' hn path k c with ⟨e, he⟩ | ⟨hl, hy, hc, ho⟩
    · refine .inl ⟨.cannotStage path e, ?_⟩
      rw [he]
    · refine .inr ⟨hl, hy, _, _, ?_, .copy rfl hs⟩
      rw [hc]
      exact ho
  · rename_i hbare
    rcases hstaging.openStaging h0 hproper hd' hn path with ⟨e, he⟩ | ⟨hl, hy, ho⟩
    · exact .inl ⟨e, he⟩
    · exact .inr ⟨hl, hy, _, _, ho, .empty (base_eq_nil hbare)⟩

theorem openWrite_cases (truncate : Bool) (wf : s.tree.WellFormed) (h0 : 0 ∉ path)
    (hslash : slash ∈ path)
    (hstatus : ∀ e, s.tree.status path ≠ .unknown e) (htag : 0 ∉ s.tags s.drawn)
    (htag' : slash ∉ s.tags s.drawn) (vacant : s.Vacant path) :
    (∃ e drawn, s.drawn ≤ drawn ∧
      s.openWrite truncate path = (.error e, { s with drawn := drawn })) ∨
      ∃ p x w t, Opened s path p x ∧
        Made s truncate path (p ++ [stagingLast x (s.tags s.drawn)]) w t ∧
          s.openWrite truncate path =
            (.ok (.upload {
              target := path
              staging := stagingName path (s.tags s.drawn)
              writer := w }), { s with tree := t, drawn := s.drawn + 1 }) := by
  unfold openWrite
  split
  · rename_i e _
    exact .inl ⟨e, s.drawn, Nat.le_refl _, rfl⟩
  · rename_i hr
    have hs := status_of_refusal hr hstatus
    split
    · exact .inl ⟨_, s.drawn, Nat.le_refl _, rfl⟩
    · rename_i hd
      obtain ⟨dir, gap, x, split⟩ := exists_split hslash
      obtain ⟨p, hp⟩ := split.leads h0 (by simpa using hd)
      have hnone : ∀ q, s.tree.status path ≠ .found q .dir := by
        rintro q hq
        rcases hs with hs | ⟨_, _, _, _, hs⟩ <;> cases hs.symm.trans hq
      obtain ⟨hx, hshort, hdead, hspared, hfound⟩ := split.aim wf h0 hstatus hnone hp
      have hplain : 0 ∉ stagingLast x (s.tags s.drawn) := by
        have hx0 : 0 ∉ x := fun hb => h0 (split.mem_of_mem_name hb)
        have ha : 0 ∉ ascii ".tftpff-" := by decide
        simp [stagingLast, hx0, ha, htag]
      have hstaging := split.staging htag'
      have h0' : 0 ∉ stagingName path (s.tags s.drawn) := by
        have hdir : 0 ∉ dir := fun hb => h0 (split.mem_of_mem_dir hb)
        have hsep : (0 : UInt8) ≠ slash := by decide
        rw [split.stagingName]
        simp only [List.mem_append, List.mem_cons, hdir, hsep, hplain, or_self, not_false_eq_true]
      have hp' : s.tree.Leads maxLinks (s.tree.origin (stagingName path (s.tags s.drawn)))
          (Bytes.parts slash dir) p := by
        rw [split.stagingName, split.origin]
        exact hp
      have hentry : s.tree.findEntry path = .ok (p, .name x false) :=
        split.findEntry h0 (Tree.length_of_find h0 (Tree.find_of_known hstatus).2) hx hp
      have hfree := vacant p x hentry
      have hproper := proper_stagingLast x (s.tags s.drawn)
      rcases stage_cases truncate split h0' htag' hp hfree with
        ⟨e, he⟩ | ⟨hl, hy, w, t, ho, made⟩
      · refine .inl ⟨e, s.drawn + 1, Nat.le_succ _, ?_⟩
        dsimp only
        rw [he]
        rfl
      · have opened : Opened s path p x := {
          dir := hp.2
          entry := hentry
          proper := hx
          short := hshort
          dead := hdead
          spared := hspared
          allowed := hs
          found := hfound
          free := hfree
          plain := hplain
          last := hstaging.lastName? h0' hproper.1
          staged := hstaging.findEntry h0' hl hproper hp'
          stagedShort := hy }
        refine .inr ⟨p, x, w, t, opened, made, ?_⟩
        dsimp only
        rw [ho]
        rfl

/-! A request for a file -/

section

variable {name : Bytes} {resolved : Path}

theorem openFile_unresolved {e : Error} (h : s.resolve name = .error e) (d : Direction) :
    Server.openFile d name s = (.error e.toStorageError, s) := by
  simp only [Server.openFile, Storage.resolve, h]
  rfl

theorem openFile_read_ok (h : s.resolve name = .ok resolved) : Server.openFile .read name s =
    ((s.openRead resolved.text).mapError Error.toStorageError, s) := by
  simp only [Server.openFile, Storage.resolve, h]
  rfl

theorem openFile_write_ok (h : s.resolve name = .ok resolved) : Server.openFile .write name s =
    ((s.openWrite true resolved.text).1.mapError Error.toStorageError,
      (s.openWrite true resolved.text).2) := by
  simp only [Server.openFile, Storage.resolve, h]
  rfl

end

/-- What comes of a request for a file: it is refused, when a name for a staging file may have been
drawn in vain, or it opens a reader, or an upload whose staging file is new. -/
inductive Answer (s : Served) (name : Bytes) :
    Direction → Except StorageError Handle × Served → Prop
  | refused {d : Direction} (e : StorageError) {drawn : Nat} (le : s.drawn ≤ drawn) :
    Answer s name d (.error e, { s with drawn := drawn })
  | read (reader : Reader) (size : UInt64) : Answer s name .read (.ok (.reader reader size), s)
  | write {path : Path} {p : Place} {x : Name} (resolved : s.resolve name = .ok path)
    (opened : s.Opened path.text p x) :
    Answer s name .write (
      .ok (.upload {
        target := path.text
        staging := stagingName path.text (s.tags s.drawn)
        writer := { sink := .file s.tree.serial } }),
      { s with
        tree := s.tree.addFile (p ++ [stagingLast x (s.tags s.drawn)])
        drawn := s.drawn + 1 })

theorem answer {name : Bytes} (wf : s.tree.WellFormed) (hroot : ∀ n ∈ s.root, 0 ∉ n)
    (htag : 0 ∉ s.tags s.drawn) (htag' : slash ∉ s.tags s.drawn) (fresh : s.Fresh) (h0 : 0 ∉ name)
    (d : Direction) : s.Answer name d (Server.openFile d name s) := by
  cases hr : s.resolve name with
  | error e =>
    rw [openFile_unresolved hr]
    exact .refused _ (Nat.le_refl _)
  | ok path =>
    cases d with
    | read =>
      rw [openFile_read_ok hr]
      cases ho : s.openRead path.text with
      | error e => exact .refused _ (Nat.le_refl _)
      | ok file =>
        obtain ⟨reader, size, rfl⟩ := openRead_reader ho
        exact .read reader size
    | write =>
      obtain ⟨hplain, hstatus⟩ := resolve_ok hr h0 hroot
      rw [openFile_write_ok hr]
      rcases openWrite_cases true wf hplain (slash_mem_text _) hstatus htag htag'
        (fresh.vacant _) with ⟨e, drawn, hd, he⟩ | ⟨p, x, w, t, o, made, ho⟩
      · rw [he]
        exact .refused _ hd
      · rw [ho]
        cases made with
        | empty => exact .write hr o
        | copy keep => cases keep

end Served

end Disk
end Tftp
