import Tftp.Proofs.Disk.Staging
import Tftp.Proofs.Storage.Kept

namespace Tftp
namespace Disk

def Upload.Lodged (u : Upload) (t : Tree) : Prop :=
  ∃ p y, t.findEntry u.staging = .ok (p, .name y false) ∧ y.length ≤ maxName

structure Tidy (base : Nat) (us : List Upload) (s : Served) : Prop where
  guarded : Guarded base us s
  lodged : ∀ u ∈ us, u.Lodged s.tree

variable {s s' : Served} {t t' : Tree} {u u' : Upload} {us : List Upload} {base : Nat}
  {file file' : Handle} {done : Bool} {p : Place} {y : Name} {text : Bytes}

theorem Tree.remove_or_gone (he : t.findEntry text = .ok (p, .name y false))
    (hy : y.length ≤ maxName) (hf : t.FilesOnly base y) :
    (∃ t', t.remove text = .ok t') ∨ t.remove text = .error .noEntry := by
  cases hn : t.node? (p ++ [y]) with
  | none =>
    have hc : child p y = .ok (p ++ [y]) := child_eq_ok_iff.2 ⟨hy, rfl⟩
    right
    simp [remove, he, hc, Except.bind, removeChild, hn]
  | some n =>
    obtain ⟨k, c, _, rfl⟩ := hf _ _ hn List.getLast?_concat
    exact .inl ⟨_, remove_file he hy hn⟩

theorem Upload.Lodged.steady (h : u.Lodged t) (steady : Tree.Steady t t') : u.Lodged t' := by
  obtain ⟨p, y, he, hy⟩ := h
  exact ⟨p, y, steady.findEntry he, hy⟩

theorem Upload.Lodged.follow (h : u.Lodged t) (f : u.Follows u') : u'.Lodged t := by
  rw [Upload.Lodged, f.staging]
  exact h

namespace Tidy

theorem perm {us' : List Upload} (p : us.Perm us') (h : Tidy base us s) : Tidy base us' s where
  guarded := h.guarded.perm p
  lodged u hu := h.lodged u (p.mem_iff.2 hu)

theorem refusing (h : Tidy base us s) (faults : Faults) :
    Tidy base us { s with faults := faults } where
  guarded := {
    wellFormed := h.guarded.wellFormed
    single := h.guarded.single
    root := h.guarded.root
    tagging := h.guarded.tagging
    pending := fun u hu =>
      have hp := h.guarded.pending u hu
      ⟨hp.aimed, hp.staged, hp.own, hp.files⟩
    apart := h.guarded.apart }
  lodged := h.lodged

theorem act (h : Tidy base (file.upload?.toList ++ us) s) (a : s.Act done file file' s') :
    Tidy base (file'.upload?.toList ++ us) s' where
  guarded := h.guarded.act a
  lodged u hu := by
    have steady := h.guarded.steady a
    rcases List.mem_append.1 hu with hu | hu
    · cases a with
      | reader => cases hu
      | upload follows | commit follows =>
        rw [List.mem_singleton.1 hu]
        exact ((h.lodged _ List.mem_cons_self).steady steady).follow follows
    · exact (h.lodged u (List.mem_append_right _ hu)).steady steady

theorem release (h : Tidy base (file.upload?.toList ++ us) s) :
    Tidy base us (s.release file).2 where
  guarded := h.guarded.release
  lodged u hu := by
    have hu := h.lodged u (List.mem_append_right _ hu)
    cases file with
    | reader => exact hu
    | upload v =>
      have g : Guarded base (v :: us) s := h.guarded
      obtain ⟨t, t', c, hw, c', hs⟩ := g.release_cases
      rw [hs]
      exact (hu.steady (c.steady g.wellFormed (g.pending v List.mem_cons_self))).steady
        (c'.steady hw.wellFormed (hw.pending v List.mem_cons_self))

theorem opened (h : Tidy base us s) (fresh : s.Fresh) {path : Bytes} {x : Name}
    (o : s.Opened path p x) {w : Writer} (hw : w.sink = .file s.tree.serial) : Tidy base
      ({ target := path
         staging := Served.stagingName path (s.tags s.drawn)
         writer := w } :: us)
      { s with
        tree := s.tree.addFile (p ++ [stagingLast x (s.tags s.drawn)])
        drawn := s.drawn + 1 } where
  guarded := h.guarded.opened fresh o hw
  lodged u hu := by
    have steady := Tree.steady_addFile (by simp) o.free
    rcases List.mem_cons.1 hu with rfl | hu
    · exact ⟨p, _, steady.findEntry o.staged, o.stagedShort⟩
    · exact (h.lodged u hu).steady steady

theorem kept (base : Nat) : Storage.Kept (fun s : Served => s.Fresh) (fun name => 0 ∉ name)
    fun (files : List Handle) s => Tidy base (files.flatMap (·.upload?.toList)) s where
  perm hp h := h.perm (hp.flatMap_right _)
  opened := by
    intro d name files s s' file ho fresh h0 h
    have answer := h.guarded.answer fresh h0 d
    rw [ho] at answer
    cases answer with
    | read => exact h
    | write _ o => exact h.opened fresh o rfl
  refused := by
    intro d name files s s' e ho fresh h0 h
    have answer := h.guarded.answer fresh h0 d
    rw [ho] at answer
    cases answer with
    | refused _ le => exact { h with guarded := h.guarded.draw le }
  read hr h := h.act (Served.act_of_read hr)
  write hw h := h.act (Served.act_of_write hw)
  commit hc h := h.act (Served.act_of_commit hc).choose_spec
  release h := h.release

theorem release_log (h : Tidy base (file.upload?.toList ++ us) s) : (s.release file).1 = [] := by
  cases file with
  | reader => rfl
  | upload u =>
    unfold Served.release
    dsimp only
    split
    · rfl
    · rcases hc : u.writer.close s.tree with ⟨r, w, t⟩
      have wrote := (Writer.close_wrote hc).2
      have g : Guarded base (u :: us) s := h.guarded
      have gt := g.change wrote.change
      obtain ⟨p, y, he, hy⟩ := (h.lodged u List.mem_cons_self).steady
        (wrote.change.steady g.wellFormed (g.pending u List.mem_cons_self))
      have hfiles := (gt.pending u List.mem_cons_self).files y (Tree.lastName?_of_findEntry he)
      rcases Tree.remove_or_gone he hy hfiles with ⟨t', hr⟩ | hr <;> simp only [hr]

end Tidy
end Disk
end Tftp
