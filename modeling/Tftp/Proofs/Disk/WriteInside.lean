import Tftp.Proofs.Disk.Resolve
import Tftp.Proofs.Disk.Staging

/-!
Which entries an upload can touch: its target's and its staging file's, in the one directory that
holds both. This directory is in the served one, unless the target is a link outside to a file
inside; then what is checked is where the link leads, and what is replaced is the link.
-/

namespace Tftp
namespace Disk

theorem Tree.canonicalFrom_leads {t : Tree} {done init rest : List Name} {a q : Place}
    (hd : t.walk true maxLinks [] done = .ok a) (h : t.Leads maxLinks [] (done ++ init) q)
    (flat : ∀ n ∈ done ++ init, slash ∉ n ∧ 0 ∉ n)
    (hl : (Place.text (done ++ init)).length < maxPath) :
    t.canonicalFrom a done (init ++ rest) = t.canonicalFrom q (done ++ init) rest := by
  induction init generalizing done a with
  | nil =>
    rw [List.append_nil] at h ⊢
    cases hd.symm.trans h.1
    rfl
  | cons name init ih =>
    have happ : done ++ name :: init = (done ++ [name]) ++ init := by simp
    rw [happ] at h flat hl ⊢
    obtain ⟨r, hr⟩ := h.prefix_leads
    have hne : done ++ [name] ≠ [] := by simp
    have hshort : (Place.text (done ++ [name])).length < maxPath :=
      Nat.lt_of_le_of_lt (Place.length_text _ _) hl
    have hs : t.status (Place.text (done ++ [name])) = .found r .dir := by
      refine Tree.status_eq_found_iff.2 ⟨?_, hr.2⟩
      rw [Tree.find_text hne (fun n hn => flat n (List.mem_append_left _ hn)) hshort]
      exact hr.1
    rw [List.cons_append, canonicalFrom, hs]
    exact ih hr.1 h flat hl

namespace Served

variable {s : Served} {name : Bytes} {p : Path} {dir : Place} {x : Name}

theorem Resolved.inside_of_missing (h : s.Resolved name p) (h0 : 0 ∉ name)
    (hroot : ∀ n ∈ s.root, Legible n) (hx : Proper x)
    (he : s.tree.findEntry p.text = .ok (dir, .name x false))
    (hs : s.tree.status p.text = .missing) : s.root <+: dir := by
  obtain ⟨init, hp, hleads⟩ := h.last h0 hroot he
  have hlen : p.text.length < maxPath :=
    Tree.length_of_find (h.plain_text h0 hroot) (Tree.find_of_known h.status_known).2
  have htext : p.text = Place.text (init ++ [x]) := by rw [Path.text, hp]
  have hcanon : s.tree.canonicalFrom [] [] p.elements = s.tree.canonicalFrom dir init [x] := by
    rw [hp]
    refine Tree.canonicalFrom_leads (Tree.walk_nil _ _ _) hleads (fun n hn => ?_) ?_
    · have hf := h.flat_elements h0 hroot n (by rw [hp]; exact List.mem_append_left _ hn)
      exact ⟨hf.1, hf.2.1⟩
    · rw [htext] at hlen
      exact Nat.lt_of_le_of_lt (Place.length_text init [x]) hlen
  obtain ⟨real, hreal, hb⟩ := h.real
  rw [Tree.weaklyCanonical, hs] at hreal
  dsimp only at hreal
  rw [hcanon, Tree.canonicalFrom, ← htext, hs] at hreal
  have hlast : Path.extend ⟨dir, false⟩ [x] = ⟨dir ++ [x], false⟩ := by
    simp [Path.extend, Path.descend, hx.1, hx.2.1, hx.2.2]
  simp only [Tree.canonical] at hreal
  split at hreal
  · cases hreal
  · cases hreal
    dsimp only at hb
    rw [hlast] at hb
    obtain ⟨rest, hne, heq⟩ := Path.below_iff.1 hb
    rw [Path.elements_plain] at heq
    rcases List.prefix_concat_iff.1 ⟨rest, heq.symm⟩ with hroot | hpre
    · simp [hroot, hne] at heq
    · exact hpre

theorem Resolved.inside (h : s.Resolved name p) (h0 : 0 ∉ name) (hroot : ∀ n ∈ s.root, Legible n)
    (o : s.Opened p.text dir x) : s.root <+: dir ∨ s.overwrite = true ∧
      ∃ target q k c, s.tree.node? (dir ++ [x]) = some (.link target) ∧
        s.tree.status p.text = .found q (.file k c) ∧ s.root <+: q ∧ q ≠ s.root := by
  rcases o.allowed with hs | ⟨ho, q, k, c, hs⟩
  · exact .inl (h.inside_of_missing h0 hroot o.proper o.entry hs)
  · obtain ⟨hpre, hne⟩ := h.below_of_found hs
    by_cases hlink : ∃ target, s.tree.node? (dir ++ [x]) = some (.link target)
    · obtain ⟨target, hlink⟩ := hlink
      exact .inr ⟨ho, target, q, k, c, hlink, hs, hpre, hne⟩
    · have hf := o.found fun target hl => hlink ⟨target, hl⟩
      cases (Tree.status_eq_found_iff.1 hs).1.symm.trans hf
      exact .inl ((List.prefix_concat_iff.1 hpre).resolve_left (Ne.symm hne))

inductive Use
  | write (block : Bytes)
  | commit

def use (s : Served) (file : Handle) : Use → Handle × Served
  | .write block => (s.write block file).2
  | .commit => (s.commit file).2

def useAll (s : Served) (file : Handle) : List Use → Handle × Served
  | [] => (file, s)
  | u :: us => (s.use file u).2.useAll (s.use file u).1 us

/-- One upload, under way or committed: a tree differs from the first one in the entries of its
target and its staging file only. -/
structure Confined (t : Tree) (dir : Place) (x y : Name) (file : Handle) (s : Served) : Prop where
  wellFormed : s.tree.WellFormed
  state : file.Settled ∨ ∃ u k, file = .upload u ∧ u.Staged s.tree dir x y k
  same : ∀ r, r ≠ dir ++ [x] → r ≠ dir ++ [y] → s.tree.node? r = t.node? r

variable {t : Tree} {y : Name} {file : Handle}

theorem Confined.use (h : Confined t dir x y file s) (call : Use) :
    Confined t dir x y (s.use file call).1 (s.use file call).2 := by
  rcases h.state with hs | ⟨u, k, rfl, hu⟩
  · have hsettled : (s.use file call).1.Settled ∧ (s.use file call).2 = s := by
      cases call with
      | write block => exact hs.write block
      | commit => exact hs.commit
    rw [hsettled.2]
    exact { h with state := .inl hsettled.1 }
  · cases call with
    | write block =>
      obtain ⟨w, t', he, hnext, hu', _, hnode, _⟩ := hu.write h.wellFormed block
      rw [Served.use, he]
      exact {
        wellFormed := hnext.wellFormed
        state := .inr ⟨_, k, rfl, hu'⟩
        same := fun r hx hy => (hnode r hy).trans (h.same r hx hy) }
    | commit =>
      obtain ⟨w, t', c, he, hclosed, hnext, _, hnode, _⟩ := hu.commit h.wellFormed
      rw [Served.use, he]
      exact {
        wellFormed := hnext.wellFormed
        state := .inl ⟨rfl, hclosed⟩
        same := fun r hx hy => by
          have hr := hnode r
          rw [if_neg hx, if_neg hy] at hr
          exact hr.trans (h.same r hx hy) }

theorem Confined.useAll (h : Confined t dir x y file s) (calls : List Use) :
    Confined t dir x y (s.useAll file calls).1 (s.useAll file calls).2 := by
  induction calls generalizing s file with
  | nil => exact h
  | cons call calls ih => exact ih (h.use call)

theorem Confined.release (h : Confined t dir x y file s) {r : Place} (hx : r ≠ dir ++ [x])
    (hy : r ≠ dir ++ [y]) : (s.release file).2.tree.node? r = t.node? r := by
  rcases h.state with hs | ⟨u, k, rfl, hu⟩
  · rw [hs.release]
    exact h.same r hx hy
  · obtain ⟨t', he, _, hnode, _⟩ := hu.release h.wellFormed
    rw [he, hnode, if_neg hy]
    exact h.same r hx hy

/-- Whatever is done with an upload, it touches two entries of one directory, its target's and its
staging file's. The directory is below the root, or the target was a link to a file below the root
that was to be overwritten. -/
theorem write_inside {s' : Served} {truncate : Bool} (lawful : s.tree.Lawful)
    (root : s.tree.node? s.root = some .dir) (plain : 0 ∉ s.tags s.drawn)
    (flat : slash ∉ s.tags s.drawn) (h0 : 0 ∉ name) (hr : s.resolve name = .ok p)
    (vacant : s.Vacant p.text) (ho : s.openWrite truncate p.text = (.ok file, s')) (calls : List Use) :
    ∃ dir x, s.tree.findEntry p.text = .ok (dir, .name x false) ∧
      (∀ r, (s'.useAll file calls).2.tree.node? r ≠ s.tree.node? r ∨
          ((s'.useAll file calls).2.release (s'.useAll file calls).1).2.tree.node? r ≠
            s.tree.node? r →
        r = dir ++ [x] ∨ r = dir ++ [stagingLast x (s.tags s.drawn)]) ∧
      (s.root <+: dir ∨ s.overwrite = true ∧
        ∃ target q k c, s.tree.node? (dir ++ [x]) = some (.link target) ∧
          s.tree.status p.text = .found q (.file k c) ∧ s.root <+: q ∧ q ≠ s.root) := by
  have h := resolved_of_resolve hr
  have hroot := lawful.legible_of (p := s.root) (by simp [root])
  rcases openWrite_cases truncate lawful.toWellFormed (h.plain_text h0 hroot)
    (slash_mem_text _) h.status_known plain flat vacant with
    ⟨e, drawn, _, he⟩ | ⟨dir, x, w, t, o, made, he⟩
  · cases ho.symm.trans he
  · cases ho.symm.trans he
    have next := o.next made lawful.toWellFormed
    have hstart : Confined s.tree dir x (stagingLast x (s.tags s.drawn))
        (.upload {
          target := p.text
          staging := stagingName p.text (s.tags s.drawn)
          writer := w }) { s with tree := t, drawn := s.drawn + 1 } := {
      wellFormed := next.wellFormed
      state := .inr ⟨_, _, rfl, o.upload made lawful.toWellFormed⟩
      same := fun r _ hy => made.node?_eq (by simp) lawful.toWellFormed hy }
    refine ⟨dir, x, o.entry, fun r hch => ?_, h.inside h0 hroot o⟩
    by_contra hne
    obtain ⟨hx, hy⟩ := not_or.1 hne
    have hend := hstart.useAll calls
    rcases hch with hch | hch
    · exact hch (hend.same r hx hy)
    · exact hch (hend.release hx hy)

def outwardServed : Served where
  tree := {
    entries := [
      ([ascii "root"], .dir),
      ([ascii "outside"], .dir),
      ([ascii "root", ascii "f"], .file 0 #[65]),
      ([ascii "root", ascii "d"], .link (ascii "../outside")),
      ([ascii "outside", ascii "x"], .link (ascii "../root/f"))]
    serial := 1 }
  root := [ascii "root"]
  tags := letterTags

theorem lawful_outward : outwardServed.tree.Lawful := Tree.lawful_of_orderly (by decide +kernel)

def outwardPath : Path := ⟨[ascii "root", ascii "d", ascii "x"], false⟩

def outwardHandle : Handle := .upload {
  target := outwardPath.text
  staging := stagingName outwardPath.text (letterTags 0)
  writer := { sink := .file 1 } }

def outwardOpened : Served := (outwardServed.openWrite true outwardPath.text).2

theorem openWrite_outward :
    outwardServed.openWrite true outwardPath.text = (.ok outwardHandle, outwardOpened) := by
  have h : (outwardServed.openWrite true outwardPath.text).1 = .ok outwardHandle := by
    decide +kernel
  rw [← h, outwardOpened]

theorem resolve_outward : outwardServed.resolve (ascii "d/x") = .ok outwardPath := by
  decide +kernel

theorem fresh_outward : outwardServed.Fresh := fresh_of_tagUsed (by decide +kernel)

theorem write_inside_outward :
    let calls := [Use.write [66], Use.commit]
    let done := outwardOpened.useAll outwardHandle calls
    outwardServed.openWrite true outwardPath.text = (.ok outwardHandle, outwardOpened) ∧
      ∃ dir x, outwardServed.tree.findEntry outwardPath.text = .ok (dir, .name x false) ∧
        (∀ r, done.2.tree.node? r ≠ outwardServed.tree.node? r ∨
            (done.2.release done.1).2.tree.node? r ≠ outwardServed.tree.node? r →
          r = dir ++ [x] ∨ r = dir ++ [stagingLast x (letterTags 0)]) ∧
        (outwardServed.root <+: dir ∨ outwardServed.overwrite = true ∧
          ∃ target q k c, outwardServed.tree.node? (dir ++ [x]) = some (.link target) ∧
            outwardServed.tree.status outwardPath.text = .found q (.file k c) ∧
            outwardServed.root <+: q ∧ q ≠ outwardServed.root) :=
  ⟨openWrite_outward, write_inside lawful_outward rfl (tagging_letterTags.plain 0)
    (tagging_letterTags.flat 0) (by decide) resolve_outward (fresh_outward.vacant _)
    openWrite_outward _⟩

/-- That a name resolves to a path below the root does not keep its upload below the root. -/
theorem not_written_inside : ¬ ∀ (s s' : Served) (name : Bytes) (p : Path) (file : Handle)
    (calls : List Use) (r : Place), s.tree.Lawful → s.tree.node? s.root = some .dir →
    Tagging s.tags → s.Fresh → 0 ∉ name → s.resolve name = .ok p →
    s.openWrite true p.text = (.ok file, s') →
    (s'.useAll file calls).2.tree.node? r ≠ s.tree.node? r → s.root <+: r.dropLast := by
  intro h
  have hout := h outwardServed outwardOpened (ascii "d/x") outwardPath outwardHandle
    [.write [66], .commit] [ascii "outside", ascii "x"] lawful_outward rfl tagging_letterTags
    fresh_outward (by decide) resolve_outward openWrite_outward (by decide +kernel)
  revert hout
  decide +kernel

end Served
end Disk
end Tftp
