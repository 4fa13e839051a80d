import Tftp.Proofs.Storage.Kept
import Tftp.Proofs.Storage.Reliable

namespace Tftp

variable {σ η ω : Type} [Storage σ η]

def Storage.SameAnswer {α : Type} (look : η → σ → ω) (a b : Except StorageError α × η × σ) : Prop :=
  a.1 = b.1 ∧ look a.2.1 a.2.2 = look b.2.1 b.2.2

/-- While `I` holds of the open files and their store, `look` shows all there is to a file. -/
structure Storage.Independent (I : List η → σ → Prop) (look : η → σ → ω) : Prop where
  kept : Storage.Kept (fun _ => True) (fun _ => True) I
  read {file file' : η} {files files' : List η} {store store' : σ} (n : Nat) :
    I (file :: files) store → I (file' :: files') store' → look file store = look file' store' →
      SameAnswer look (Storage.read n file store) (Storage.read n file' store')
  write {file file' : η} {files files' : List η} {store store' : σ} (block : Bytes) :
    I (file :: files) store → I (file' :: files') store' → look file store = look file' store' →
      SameAnswer look (Storage.write block file store) (Storage.write block file' store')
  commit {file file' : η} {files files' : List η} {store store' : σ} :
    I (file :: files) store → I (file' :: files') store' → look file store = look file' store' →
      SameAnswer look (Storage.commit file store) (Storage.commit file' store')
  besideOpen {file : η} {files : List η} {store : σ} (d : Direction) (name : Bytes) :
    I (file :: files) store → look file (Server.openFile d name store).2 = look file store
  besideRead {other file : η} {files : List η} {store : σ} (n : Nat) :
    I (other :: file :: files) store → look file (Storage.read n other store).2.2 = look file store
  besideWrite {other file : η} {files : List η} {store : σ} (block : Bytes) :
    I (other :: file :: files) store →
      look file (Storage.write block other store).2.2 = look file store
  besideCommit {other file : η} {files : List η} {store : σ} :
    I (other :: file :: files) store → look file (Storage.commit other store).2.2 = look file store
  besideRelease {other file : η} {files : List η} {store : σ} :
    I (other :: file :: files) store → look file (Storage.release other store).2 = look file store

theorem Storage.Independent.beside {I : List η → σ → Prop} {look : η → σ → ω}
    (h : Storage.Independent I look) (file : η) (seen : ω) :
    Storage.Kept (fun _ => True) (fun _ => True)
      fun files store => I (file :: files) store ∧ look file store = seen := by
  have swap : ∀ {a b : η} {files : List η} {store : σ},
      I (a :: b :: files) store → I (b :: a :: files) store := h.kept.perm (.swap ..)
  exact {
    perm := fun hp hi => ⟨h.kept.perm (hp.cons file) hi.1, hi.2⟩
    opened := by
      intro d name files store store' other ho hr hn hi
      have hlook := h.besideOpen d name hi.1
      rw [ho, hi.2] at hlook
      exact ⟨swap (h.kept.opened ho hr hn hi.1), hlook⟩
    refused := by
      intro d name files store store' e ho hr hn hi
      have hlook := h.besideOpen d name hi.1
      rw [ho, hi.2] at hlook
      exact ⟨h.kept.refused ho hr hn hi.1, hlook⟩
    read := by
      intro n other other' files store store' got hc hi
      have hlook := h.besideRead n (swap hi.1)
      rw [hc, hi.2] at hlook
      exact ⟨swap (h.kept.read hc (swap hi.1)), hlook⟩
    write := by
      intro block other other' files store store' done hc hi
      have hlook := h.besideWrite block (swap hi.1)
      rw [hc, hi.2] at hlook
      exact ⟨swap (h.kept.write hc (swap hi.1)), hlook⟩
    commit := by
      intro other other' files store store' done hc hi
      have hlook := h.besideCommit (swap hi.1)
      rw [hc, hi.2] at hlook
      exact ⟨swap (h.kept.commit hc (swap hi.1)), hlook⟩
    release := fun hi => ⟨h.kept.release (swap hi.1), (h.besideRelease (swap hi.1)).trans hi.2⟩ }

namespace Memory

theorem Files.get_put_of_ne {name other : Bytes} (h : other ≠ name) (files : Files) (file : File) :
    (files.put name file).get other = files.get other := by
  have hne : (other == name) = false := by simpa using h
  unfold get get?
  induction files with
  | nil => rw [put, List.lookup_cons, hne]
  | cons f files ih =>
    rw [put]
    split
    · rename_i hf
      rw [List.lookup_cons, List.lookup_cons, hf, hne]
    · rw [List.lookup_cons, List.lookup_cons]
      split
      · rfl
      · exact ih

def Faultless (files : Files) : Prop :=
  ∀ name, (files.get name).readFault = none ∧ (files.get name).writeFault = none ∧
    (files.get name).commitFault = none

variable {files : Files}

theorem Faultless.put (h : Faultless files) {name : Bytes} {file : File}
    (hr : file.readFault = (files.get name).readFault)
    (hw : file.writeFault = (files.get name).writeFault)
    (hc : file.commitFault = (files.get name).commitFault) : Faultless (files.put name file) := by
  intro other
  by_cases hn : other = name
  · rw [hn, Files.get_put, hr, hw, hc]
    exact h name
  · rw [Files.get_put_of_ne hn]
    exact h other

theorem Faultless.openFile (h : Faultless files) (d : Direction) (name : Bytes) :
    Faultless (Server.openFile d name files).2 := by
  unfold Server.openFile
  split
  · exact h
  · cases d with
    | read =>
      simp only [Storage.openRead, Files.openRead]
      split
      · exact h
      · exact h
      · exact h.put rfl rfl rfl
    | write =>
      simp only [Storage.openWrite, Files.openWrite]
      split
      · exact h
      · exact h.put rfl rfl rfl

theorem Faultless.read (h : Faultless files) (n : Nat) (file : Handle) :
    Faultless (Storage.read n file files).2.2 := by
  rw [read_ok (h file.name).1]
  exact h.put rfl rfl rfl

theorem Faultless.write (h : Faultless files) (block : Bytes) (file : Handle) :
    Faultless (Storage.write block file files).2.2 := by
  rw [write_ok (h file.name).2.1]
  exact h.put rfl rfl rfl

theorem Faultless.commit (h : Faultless files) (file : Handle) :
    Faultless (Storage.commit file files).2.2 := by
  rw [commit_ok (h file.name).2.2]
  exact h.put rfl rfl rfl

theorem independent : Storage.Independent (fun _ : List Handle => Faultless) fun file _ => file where
  kept := {
    perm := fun _ h => h
    opened := by
      intro d name _ store store' file ho _ _ h
      have hf := h.openFile d name
      rwa [ho] at hf
    refused := by
      intro d name _ store store' e ho _ _ h
      have hf := h.openFile d name
      rwa [ho] at hf
    read := by
      intro n file _ _ _ _ _ hc h
      have hf := h.read n file
      rwa [hc] at hf
    write := by
      intro block file _ _ _ _ _ hc h
      have hf := h.write block file
      rwa [hc] at hf
    commit := by
      intro file _ _ _ _ _ hc h
      have hf := h.commit file
      rwa [hc] at hf
    release := fun h => h.put rfl rfl rfl }
  read n h h' he := by
    cases he
    rw [read_ok (h _).1, read_ok (h' _).1]
    exact ⟨rfl, rfl⟩
  write block h h' he := by
    cases he
    rw [write_ok (h _).2.1, write_ok (h' _).2.1]
    exact ⟨rfl, rfl⟩
  commit h h' he := by
    cases he
    rw [commit_ok (h _).2.2, commit_ok (h' _).2.2]
    exact ⟨rfl, rfl⟩
  besideOpen _ _ _ := rfl
  besideRead _ _ := rfl
  besideWrite _ _ := rfl
  besideCommit _ := rfl
  besideRelease _ := rfl

end Memory
end Tftp
