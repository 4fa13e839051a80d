import Tftp.Proofs.Storage.Image
import Tftp.Server

/-!
A store that keeps a journal of what was put in place. It passes every operation on to a store of
any kind and remembers, beside each file that is written, for which path it was opened and the
blocks that it took; when the file is committed, its path and all of its bytes are entered.
-/

namespace Tftp

structure Journal (σ : Type) where
  store : σ
  completed : List (Bytes × Bytes) := []

structure Draft (η : Type) where
  file : η
  /-- The path it is written for, until it is put in place there. -/
  path? : Option Bytes
  blocks : List Bytes := []

namespace Draft

variable {η : Type}

def wrote (d : Draft η) (file : η) (block : Bytes) : Except StorageError Unit → Draft η
  | .error _ => { d with file := file }
  | .ok () => { d with file := file, blocks := d.blocks ++ [block] }

def committed (d : Draft η) (file : η) : Except StorageError Unit → Draft η
  | .error _ => { d with file := file }
  | .ok () => { d with file := file, path? := none }

def entry (d : Draft η) : Except StorageError Unit → List (Bytes × Bytes)
  | .error _ => []
  | .ok () => (d.path?.map fun path => (path, d.blocks.flatten)).toList

variable {d : Draft η}

theorem path?_wrote (d : Draft η) (file : η) (block : Bytes) (res : Except StorageError Unit) :
    (d.wrote file block res).path? = d.path? := by
  cases res <;> rfl

theorem path?_committed (h : d.path? = none) (file : η) (res : Except StorageError Unit) :
    (d.committed file res).path? = none := by
  cases res with
  | error e => exact h
  | ok => rfl

theorem entry_of_done (h : d.path? = none) (res : Except StorageError Unit) : d.entry res = [] := by
  cases res <;> simp [Draft.entry, h]

end Draft

namespace Journal

variable {σ η : Type} [Storage σ η]

instance : Storage (Journal σ) (Draft η) where
  resolve name j := Storage.resolve name j.store
  openRead path j :=
    (Storage.openRead path j.store).map (·.map (⟨·, none, []⟩)) fun store => { j with store := store }
  openWrite path j :=
    (Storage.openWrite path j.store).map (·.map (⟨·, some path, []⟩))
      fun store => { j with store := store }
  size d j := Storage.size d.file j.store
  read n d j :=
    let (got, file, store) := Storage.read n d.file j.store
    (got, { d with file := file }, { j with store := store })
  write block d j :=
    let (done, file, store) := Storage.write block d.file j.store
    (done, d.wrote file block done, { j with store := store })
  commit d j :=
    let (done, file, store) := Storage.commit d.file j.store
    (done, d.committed file done, ⟨store, j.completed ++ d.entry done⟩)
  release d j :=
    let (log, store) := Storage.release d.file j.store
    (log, { j with store := store })

theorem image : Storage.Image (Draft.file (η := η)) (Journal.store (σ := σ)) where
  resolve _ _ := rfl
  openRead path j := by
    change _ = ((Storage.openRead path j.store).map _ _).map _ _
    rcases Storage.openRead path j.store with ⟨_ | file, store⟩ <;> rfl
  openWrite path j := by
    change _ = ((Storage.openWrite path j.store).map _ _).map _ _
    rcases Storage.openWrite path j.store with ⟨_ | file, store⟩ <;> rfl
  size _ _ := rfl
  read _ _ _ := rfl
  write block d j := by
    simp only [Storage.write]
    rcases Storage.write block d.file j.store with ⟨_ | _, file, store⟩ <;> rfl
  commit d j := by
    simp only [Storage.commit]
    rcases Storage.commit d.file j.store with ⟨_ | _, file, store⟩ <;> rfl
  release _ _ := rfl

theorem openFile_journal (d : Direction) (name : Bytes) (j : Journal σ) :
    Server.openFile d name j = (Server.openFile d name j.store).map
      (·.map fun file : η => ⟨file, match d with
        | .read => none
        | .write => (Storage.resolve name j.store).toOption, []⟩)
      fun store => { j with store := store } := by
  have hr : Storage.resolve name j = Storage.resolve name j.store := rfl
  unfold Server.openFile
  rw [hr]
  cases Storage.resolve name j.store with
  | error e => rfl
  | ok path => cases d <;> rfl

end Journal
end Tftp
