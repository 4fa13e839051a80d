import Tftp.Storage

/-!
A store that keeps a record of every call. It gives each file it opens a number and passes every
operation on to a store of any kind, so the record can be read beside whatever that store does.
-/

namespace Tftp

inductive Call
  | opened (file : Nat)
  | read (file : Nat) (got : Option Bytes)
  | wrote (file : Nat) (block : Bytes) (stored : Bool)
  | committed (file : Nat) (done : Bool)
  | released (file : Nat)
  deriving DecidableEq

def Call.track : List Nat → Call → List Nat
  | files, .opened n => n :: files
  | files, .released n => files.erase n
  | files, _ => files

def Call.block? (n : Nat) : Call → Option Bytes
  | .wrote m block true => if m = n then some block else none
  | _ => none

structure Recorded (σ : Type) where
  store : σ
  files : Nat := 0
  calls : List Call := []

structure Numbered (η : Type) where
  file : η
  number : Nat

namespace Recorded

variable {σ η : Type}

def alive (r : Recorded σ) : List Nat := r.calls.foldl Call.track []

def blocks (r : Recorded σ) (n : Nat) : List Bytes := r.calls.filterMap (Call.block? n)

def committed (r : Recorded σ) (n : Nat) : Prop := .committed n true ∈ r.calls

def note (r : Recorded σ) (store : σ) (c : Call) : Recorded σ :=
  { r with store := store, calls := r.calls ++ [c] }

@[simp] theorem note_store (r : Recorded σ) (store : σ) (c : Call) :
    (r.note store c).store = store := rfl

@[simp] theorem note_files (r : Recorded σ) (store : σ) (c : Call) :
    (r.note store c).files = r.files := rfl

@[simp] theorem note_calls (r : Recorded σ) (store : σ) (c : Call) :
    (r.note store c).calls = r.calls ++ [c] := rfl

/-- Gives the next number to a file that was opened; an opening that failed leaves no mark. -/
def enter (r : Recorded σ) :
    Except StorageError η × σ → Except StorageError (Numbered η) × Recorded σ
  | (.error e, store) => (.error e, { r with store := store })
  | (.ok file, store) =>
    (.ok ⟨file, r.files⟩, { r.note store (.opened r.files) with files := r.files + 1 })

variable [Storage σ η]

instance : Storage (Recorded σ) (Numbered η) where
  resolve name r := Storage.resolve name r.store
  openRead path r := r.enter (Storage.openRead path r.store)
  openWrite path r := r.enter (Storage.openWrite path r.store)
  size f r := Storage.size f.file r.store
  read n f r :=
    let (got, file, store) := Storage.read n f.file r.store
    (got, ⟨file, f.number⟩, r.note store (.read f.number got.toOption))
  write block f r :=
    let (done, file, store) := Storage.write block f.file r.store
    (done, ⟨file, f.number⟩, r.note store (.wrote f.number block done.isOk))
  commit f r :=
    let (done, file, store) := Storage.commit f.file r.store
    (done, ⟨file, f.number⟩, r.note store (.committed f.number done.isOk))
  release f r :=
    let (log, store) := Storage.release f.file r.store
    (log, r.note store (.released f.number))

theorem write_ok {block : Bytes} {file file' : η} {r : Recorded σ} {store : σ} {n : Nat}
    (h : Storage.write block file r.store = (.ok (), file', store)) :
    Storage.write block (⟨file, n⟩ : Numbered η) r =
      (.ok (), ⟨file', n⟩, r.note store (.wrote n block true)) := by
  simp [Storage.write, h, Except.isOk, Except.toBool]

theorem commit_ok {file file' : η} {r : Recorded σ} {store : σ} {n : Nat}
    (h : Storage.commit file r.store = (.ok (), file', store)) :
    Storage.commit (⟨file, n⟩ : Numbered η) r =
      (.ok (), ⟨file', n⟩, r.note store (.committed n true)) := by
  simp [Storage.commit, h, Except.isOk, Except.toBool]

theorem read_eq {n : Nat} {f f' : Numbered η} {r r' : Recorded σ} {got : Except StorageError Bytes}
    (h : Storage.read n f r = (got, f', r')) :
    ∃ store, Storage.read n f.file r.store = (got, f'.file, store) ∧ f'.number = f.number ∧
      r' = r.note store (.read f.number got.toOption) := by
  cases h
  exact ⟨_, rfl, rfl, rfl⟩

@[simp] theorem release_store (f : Numbered η) (r : Recorded σ) :
    (Storage.release f r).2 = r.note (Storage.release f.file r.store).2 (.released f.number) := rfl

end Recorded
end Tftp
