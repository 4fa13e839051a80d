import Tftp.Proofs.Disk.Standing
import Tftp.Proofs.Server.Consistent

namespace Tftp
namespace Disk

def uploads (files : List (Numbered Handle)) : List Upload :=
  files.flatMap (·.file.upload?.toList)

structure Ledger (files : List (Numbered Handle)) (r : Recorded Served) : Prop where
  distinct : (files.map (·.number)).Nodup
  early : ∀ f ∈ files, f.number < r.files
  record : ∀ n, r.committed n → n < r.files
  done : ∀ f ∈ files, ∀ u, f.file = .upload u → (u.committed = true ↔ r.committed f.number)

structure Watched where
  place : Place
  serial : Nat
  content : Content
  rival : Nat → Prop

structure Watched.Stands (base : Nat) (w : Watched) (files : List (Numbered Handle))
    (r : Recorded Served) : Prop where
  visible : Visible r.store.tags w.place
  early : ∀ n, w.rival n → n < r.files
  aims : ∀ f ∈ files, w.rival f.number → ∃ u, f.file = .upload u ∧ u.Aims r.store.tree w.place
  filled : ∃ k c, r.store.tree.node? w.place = some (.file k c)
  outcome : (∀ n, w.rival n → ¬ r.committed n) ∧
      r.store.tree.node? w.place = some (.file w.serial w.content) ∧
      (∀ f ∈ files, f.file.Contests r.store.tree w.place → w.rival f.number) ∨
    (∃ n, w.rival n ∧ r.committed n) ∧ r.store.tree.Gone base w.place w.serial

variable {files files' rest : List (Numbered Handle)} {r r' : Recorded Served} {w : Watched}
  {s : Served} {file file' : Handle} {n base : Nat} {done : Bool} {call : Call} {p : Place}

theorem mem_uploads {f : Numbered Handle} {u : Upload} (hf : f ∈ files) (hu : f.file = .upload u) :
    u ∈ uploads files :=
  List.mem_flatMap.2 ⟨f, hf, by simp [hu, Handle.upload?]⟩

theorem committed_note (r : Recorded Served) (s : Served) (call : Call) (m : Nat) :
    (r.note s call).committed m ↔ r.committed m ∨ call = .committed m true := by
  rw [Recorded.committed, Recorded.note_calls, List.mem_append, List.mem_singleton,
    Recorded.committed, eq_comm (a := call)]

namespace Ledger

theorem perm (hp : files.Perm files') (h : Ledger files r) : Ledger files' r where
  distinct := (hp.map _).nodup_iff.1 h.distinct
  early f hf := h.early f (hp.mem_iff.2 hf)
  record := h.record
  done f hf := h.done f (hp.mem_iff.2 hf)

theorem sublist (h : Ledger files r) (hf : files'.Sublist files) (hn : r.files ≤ r'.files)
    (hc : ∀ m, r'.committed m ↔ r.committed m) : Ledger files' r' where
  distinct := (hf.map _).nodup h.distinct
  early f hm := Nat.lt_of_lt_of_le (h.early f (hf.subset hm)) hn
  record m hm := Nat.lt_of_lt_of_le (h.record m ((hc m).1 hm)) hn
  done f hm u hu := (h.done f (hf.subset hm) u hu).trans (hc f.number).symm

theorem cons (h : Ledger files r) (hn : n < r.files) (hnew : n ∉ files.map (·.number))
    (hc : ¬ r.committed n) (hu : ∀ u, file = .upload u → u.committed = false) :
    Ledger (⟨file, n⟩ :: files) r where
  distinct := List.nodup_cons.2 ⟨hnew, h.distinct⟩
  early f hf := by
    rcases List.mem_cons.1 hf with rfl | hf
    · exact hn
    · exact h.early f hf
  record := h.record
  done f hf u hfu := by
    rcases List.mem_cons.1 hf with rfl | hf
    · simp [hu u hfu, hc]
    · exact h.done f hf u hfu

theorem number_ne (h : Ledger (⟨file, n⟩ :: rest) r) {f : Numbered Handle} (hf : f ∈ rest) :
    f.number ≠ n :=
  fun he => (List.nodup_cons.1 h.distinct).1 (List.mem_map.2 ⟨f, hf, he⟩)

theorem act (h : Ledger (⟨file, n⟩ :: rest) r) (a : r.store.Act done file file' s)
    (hc : ∀ m, call = .committed m true ↔ m = n ∧ done = true) :
    Ledger (⟨file', n⟩ :: rest) (r.note s call) where
  distinct := h.distinct
  early f hf := by
    rcases List.mem_cons.1 hf with rfl | hf
    · exact h.early ⟨file, n⟩ List.mem_cons_self
    · exact h.early f (List.mem_cons_of_mem _ hf)
  record m hm := by
    rw [committed_note, hc] at hm
    rcases hm with hm | ⟨rfl, _⟩
    · exact h.record m hm
    · exact h.early ⟨file, m⟩ List.mem_cons_self
  done f hf u hu := by
    rw [committed_note, hc]
    rcases List.mem_cons.1 hf with rfl | hf
    · have hd := h.done ⟨file, n⟩ List.mem_cons_self
      cases a with
      | reader => cases hu
      | upload _ committed late _ =>
        cases hu
        rw [committed, hd _ rfl]
        exact ⟨.inl, fun hm => hm.elim id fun hm => (hd _ rfl).1 (late hm.2)⟩
      | commit _ _ committed _ _ _ =>
        cases hu
        simp [committed]
    · have hne := h.number_ne hf
      rw [h.done f (List.mem_cons_of_mem _ hf) u hu]
      simp [hne]

end Ledger

theorem Served.Act.contests_back (g : Guarded base (file.upload?.toList ++ uploads rest) r.store)
    (a : r.store.Act done file file' s) (hf : file'.Contests s.tree p) :
    file.Contests r.store.tree p := by
  obtain ⟨u', rfl, early, ha⟩ := hf
  cases a with
  | upload follows committed late wrote =>
    rw [Upload.Aims, follows.target] at ha
    refine ⟨_, rfl, committed ▸ early, (g.pending _ List.mem_cons_self).aims_back ?_ ha⟩
    exact fun q hq => Act.aims g (.upload follows committed late wrote) hq
  | commit _ _ committed => cases early.symm.trans committed

namespace Watched.Stands

theorem perm (hp : files.Perm files') (h : w.Stands base files r) : w.Stands base files' r where
  visible := h.visible
  early := h.early
  aims f hf := h.aims f (hp.mem_iff.2 hf)
  filled := h.filled
  outcome := h.outcome.imp_left fun ⟨hr, hk, hc⟩ => ⟨hr, hk, fun f hf => hc f (hp.mem_iff.2 hf)⟩

theorem keeps (h : w.Stands base files r) (hf : files' ⊆ files)
    (g : Guarded base (uploads files) r.store) (hn : r.files ≤ r'.files)
    (hc : ∀ m, r'.committed m ↔ r.committed m)
    (tags : r'.store.tags = r.store.tags)
    (keeps : Tree.Keeps base r.store.tags r.store.tree r'.store.tree) :
    w.Stands base files' r' where
  visible := tags ▸ h.visible
  early n hm := Nat.lt_of_lt_of_le (h.early n hm) hn
  aims f hm hr := by
    obtain ⟨u, hu, ha⟩ := h.aims f (hf hm) hr
    exact ⟨u, hu, keeps.aims ha⟩
  filled := by
    obtain ⟨k, c, hk⟩ := h.filled
    exact ⟨k, c, keeps.stays h.visible hk⟩
  outcome := by
    simp only [hc]
    rcases h.outcome with ⟨hr, hk, hall⟩ | ⟨hr, hg⟩
    · refine .inl ⟨hr, keeps.stays h.visible hk, fun f hm ⟨u, hu, early, ha⟩ => ?_⟩
      have hp := g.pending u (mem_uploads (hf hm) hu)
      exact hall f (hf hm) ⟨u, hu, early, hp.aims_back (fun q => keeps.aims) ha⟩
    · exact .inr ⟨hr, keeps.gone hg⟩

theorem cons (h : w.Stands base files r) (hn : ¬ w.rival n)
    (hc : r.store.tree.node? w.place = some (.file w.serial w.content) →
      ¬ file.Contests r.store.tree w.place) : w.Stands base (⟨file, n⟩ :: files) r where
  visible := h.visible
  early := h.early
  aims f hf hr := by
    rcases List.mem_cons.1 hf with rfl | hf
    · exact absurd hr hn
    · exact h.aims f hf hr
  filled := h.filled
  outcome := by
    rcases h.outcome with ⟨hr, hk, hall⟩ | hg
    · refine .inl ⟨hr, hk, fun f hf hfc => ?_⟩
      rcases List.mem_cons.1 hf with rfl | hf
      · exact absurd hfc (hc hk)
      · exact hall f hf hfc
    · exact .inr hg

theorem act (h : w.Stands base (⟨file, n⟩ :: rest) r) (l : Ledger (⟨file, n⟩ :: rest) r)
    (g : Guarded base (uploads (⟨file, n⟩ :: rest)) r.store) (a : r.store.Act done file file' s)
    (hc : ∀ m, call = .committed m true ↔ m = n ∧ done = true) :
    w.Stands base (⟨file', n⟩ :: rest) (r.note s call) where
  visible := by
    cases a <;> exact h.visible
  early := h.early
  aims f hf hr := by
    rcases List.mem_cons.1 hf with rfl | hf
    · obtain ⟨u, hu, ha⟩ := h.aims ⟨file, n⟩ List.mem_cons_self hr
      have ha' := a.aims g ha
      cases hu
      cases a with
      | upload follows =>
        rw [Upload.Aims, ← follows.target] at ha'
        exact ⟨_, rfl, ha'⟩
      | commit follows =>
        rw [Upload.Aims, ← follows.target] at ha'
        exact ⟨_, rfl, ha'⟩
    · obtain ⟨u, hu, ha⟩ := h.aims f (List.mem_cons_of_mem _ hf) hr
      exact ⟨u, hu, a.aims g ha⟩
  filled := by
    obtain ⟨k, c, hk⟩ := h.filled
    rcases a.stays_or_gone g h.visible hk with ⟨hk', _⟩ | ⟨⟨_, hk'⟩, _⟩
    · exact ⟨k, c, hk'⟩
    · exact hk'
  outcome := by
    simp only [committed_note, hc]
    rcases h.outcome with ⟨hr, hk, hall⟩ | ⟨⟨m, hm, hr⟩, hg⟩
    · rcases a.stays_or_gone g h.visible hk with ⟨hk', hno⟩ | ⟨⟨hg, _⟩, hd, hfc⟩
      · refine .inl ⟨?_, hk', ?_⟩
        · rintro m hm (hmc | ⟨rfl, hd⟩)
          · exact hr m hm hmc
          · -- a rival that is committed a second time would be on record already
            obtain ⟨u, hu, ha⟩ := h.aims ⟨file, m⟩ List.mem_cons_self hm
            have hdone := l.done ⟨file, m⟩ List.mem_cons_self u hu
            cases hcu : u.committed with
            | false => exact hno hd ⟨u, hu, hcu, ha⟩
            | true => exact hr m hm (hdone.1 hcu)
        · intro f hf hfc
          rcases List.mem_cons.1 hf with rfl | hf
          · exact hall ⟨file, n⟩ List.mem_cons_self (a.contests_back g hfc)
          · obtain ⟨u, hu, early, ha⟩ := hfc
            have hp := g.pending u (mem_uploads (List.mem_cons_of_mem _ hf) hu)
            exact hall f (List.mem_cons_of_mem _ hf)
              ⟨u, hu, early, hp.aims_back (fun q => a.aims g) ha⟩
      · exact .inr ⟨⟨n, hall ⟨file, n⟩ List.mem_cons_self hfc, .inr ⟨rfl, hd⟩⟩, hg⟩
    · exact .inr ⟨⟨m, hm, .inl hr⟩, a.gone g hg⟩

theorem node?_eq_iff (h : w.Stands base files r) :
    r.store.tree.node? w.place = some (.file w.serial w.content) ↔
      ∀ n, w.rival n → ¬ r.committed n := by
  rcases h.outcome with ⟨hr, hk, _⟩ | ⟨⟨n, hn, hr⟩, hg⟩
  · exact ⟨fun _ => hr, fun _ => hk⟩
  · exact ⟨fun hk => absurd hk (hg.here _), fun hno => absurd hr (hno n hn)⟩

end Watched.Stands
end Disk
end Tftp
