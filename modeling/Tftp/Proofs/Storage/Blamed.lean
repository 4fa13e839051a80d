import Tftp.Proofs.Storage.Calls
import Tftp.Proofs.Storage.Image
import Tftp.Storage.Memory

namespace Tftp

variable {σ η α : Type}

structure Blamed (σ : Type) where
  store : σ
  faults : List StorageError := []

def Storage.Modest (σ : Type) [Storage σ η] : Prop :=
  ∀ (n : Nat) (file : η) (store : σ) (block : Bytes),
    (Storage.read n file store).1 = .ok block → block.length ≤ n

namespace Blamed

def faultsOf : Except StorageError α → List StorageError
  | .ok _ => []
  | .error e => [e]

def note (b : Blamed σ) (done : Except StorageError α) (store : σ) : Blamed σ :=
  ⟨store, b.faults ++ faultsOf done⟩

def opened (b : Blamed σ) : Except StorageError η × σ → Except StorageError η × Blamed σ
  | (got, store) => (got, b.note got store)

variable [Storage σ η]

instance : Storage (Blamed σ) η where
  resolve name b := Storage.resolve name b.store
  openRead path b := b.opened (Storage.openRead path b.store)
  openWrite path b := b.opened (Storage.openWrite path b.store)
  size file b := Storage.size file b.store
  read n file b :=
    let (got, file, store) := Storage.read n file b.store
    (got, file, b.note got store)
  write block file b :=
    let (done, file, store) := Storage.write block file b.store
    (done, file, b.note done store)
  commit file b :=
    let (done, file, store) := Storage.commit file b.store
    (done, file, b.note done store)
  release file b :=
    let (log, store) := Storage.release file b.store
    (log, { b with store := store })

theorem image : Storage.Image (id : η → η) (Blamed.store (σ := σ)) where
  resolve _ _ := rfl
  openRead path b := by
    change _ = (b.opened (Storage.openRead path b.store)).map _ _
    rcases Storage.openRead path b.store with ⟨_ | file, store⟩ <;> rfl
  openWrite path b := by
    change _ = (b.opened (Storage.openWrite path b.store)).map _ _
    rcases Storage.openWrite path b.store with ⟨_ | file, store⟩ <;> rfl
  size _ _ := rfl
  read _ _ _ := rfl
  write _ _ _ := rfl
  commit _ _ := rfl
  release _ _ := rfl

theorem openFile_eq (d : Direction) (name : Bytes) (b : Blamed σ) :
    Server.openFile d name b = match Storage.resolve name b.store with
      | .error e => (.error e, b)
      | .ok path => b.opened (match d with
        | .read => Storage.openRead path b.store
        | .write => Storage.openWrite path b.store) := by
  have hr : Storage.resolve name b = Storage.resolve name b.store := rfl
  unfold Server.openFile
  rw [hr]
  cases Storage.resolve name b.store with
  | error e => rfl
  | ok path => cases d <;> rfl

end Blamed

namespace Recorded

variable {r r' r'' : Recorded (Blamed σ)} {calls calls' : List Call}
  {faults faults' : List StorageError}

/-- Between two states of a store these calls were made, and these faults came of them. -/
structure Since (r r' : Recorded (Blamed σ)) (calls : List Call) (faults : List StorageError) :
    Prop where
  calls : r'.calls = r.calls ++ calls
  faults : r'.store.faults = r.store.faults ++ faults
  files : r.files ≤ r'.files

theorem Since.refl (r : Recorded (Blamed σ)) : Since r r [] [] :=
  ⟨(List.append_nil _).symm, (List.append_nil _).symm, Nat.le_refl _⟩

theorem Since.trans (h : Since r r' calls faults) (h' : Since r' r'' calls' faults') :
    Since r r'' (calls ++ calls') (faults ++ faults') where
  calls := by rw [h'.calls, h.calls, List.append_assoc]
  faults := by rw [h'.faults, h.faults, List.append_assoc]
  files := Nat.le_trans h.files h'.files

variable [Storage σ η] {f f' : Numbered η}

theorem since_read {n : Nat} {got : Except StorageError Bytes}
    (h : Storage.read n f r = (got, f', r')) :
    Since r r' [.read f.number got.toOption] (Blamed.faultsOf got) ∧ f'.number = f.number := by
  cases h
  exact ⟨⟨rfl, rfl, Nat.le_refl _⟩, rfl⟩

theorem since_write {block : Bytes} {done : Except StorageError Unit}
    (h : Storage.write block f r = (done, f', r')) :
    Since r r' [.wrote f.number block done.isOk] (Blamed.faultsOf done) ∧ f'.number = f.number := by
  cases h
  exact ⟨⟨rfl, rfl, Nat.le_refl _⟩, rfl⟩

theorem since_commit {done : Except StorageError Unit}
    (h : Storage.commit f r = (done, f', r')) :
    Since r r' [.committed f.number done.isOk] (Blamed.faultsOf done) ∧ f'.number = f.number := by
  cases h
  exact ⟨⟨rfl, rfl, Nat.le_refl _⟩, rfl⟩

theorem since_release (f : Numbered η) (r : Recorded (Blamed σ)) :
    Since r (Storage.release f r).2 [.released f.number] [] :=
  ⟨rfl, (List.append_nil _).symm, Nat.le_refl _⟩

theorem since_openFile_error {d : Direction} {name : Bytes} {e : StorageError}
    (h : Server.openFile d name r = (.error e, r')) :
    Since r r' [] [] ∨ Since r r' [] [e] := by
  rw [Server.openFile_recorded, Blamed.openFile_eq] at h
  cases hr : Storage.resolve name r.store.store with
  | error cause =>
    rw [hr] at h
    cases h
    exact .inl (.refl r)
  | ok path =>
    rw [hr] at h
    dsimp only at h
    generalize (match d with
      | .read => Storage.openRead path r.store.store
      | .write => Storage.openWrite path r.store.store) = opening at h
    rcases opening with ⟨_ | file, store⟩ <;> cases h
    exact .inr ⟨(List.append_nil _).symm, rfl, Nat.le_refl _⟩

theorem since_openFile_ok {d : Direction} {name : Bytes}
    (h : Server.openFile d name r = (.ok f, r')) : Since r r' [.opened f.number] [] := by
  rw [Server.openFile_recorded, Blamed.openFile_eq] at h
  cases hr : Storage.resolve name r.store.store with
  | error cause =>
    rw [hr] at h
    cases h
  | ok path =>
    rw [hr] at h
    dsimp only at h
    generalize (match d with
      | .read => Storage.openRead path r.store.store
      | .write => Storage.openWrite path r.store.store) = opening at h
    rcases opening with ⟨_ | file, store⟩ <;> cases h
    exact ⟨rfl, rfl, Nat.le_succ _⟩

end Recorded

theorem Memory.modest : Storage.Modest Memory.Files := by
  intro n h files block hr
  have hlen : (h.rest.take n).length ≤ n := List.length_take_le n h.rest
  simp only [Storage.read, Memory.Files.read] at hr
  split at hr
  · split at hr <;> cases hr
    exact hlen
  · cases hr
    exact hlen

end Tftp
