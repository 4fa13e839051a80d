import Tftp.Storage

/-!
Files of different stores that answer alike. Who calls on them cannot tell the one from the other,
whatever else there is in the stores.
-/

namespace Tftp
namespace Storage

variable {σ η τ θ : Type}

def Agree {α : Type} (R : η → σ → θ → τ → Prop) (a : Except StorageError α × η × σ)
    (b : Except StorageError α × θ × τ) : Prop :=
  ∃ answer file store file' store', a = (answer, file, store) ∧ b = (answer, file', store') ∧
    R file store file' store'

variable [Storage σ η] [Storage τ θ]

/-- Every call gets the same answer from either of two files that `R` ties, each with its store.
What `S` ties are the stores once the files are closed. -/
structure Simulation (R : η → σ → θ → τ → Prop) (S : σ → τ → Prop) : Prop where
  size {file : η} {store : σ} {file' : θ} {store' : τ} : R file store file' store' →
    Storage.size file store = Storage.size file' store'
  read {file : η} {store : σ} {file' : θ} {store' : τ} (n : Nat) : R file store file' store' →
    Agree R (Storage.read n file store) (Storage.read n file' store')
  write {file : η} {store : σ} {file' : θ} {store' : τ} (block : Bytes) :
    R file store file' store' →
      Agree R (Storage.write block file store) (Storage.write block file' store')
  commit {file : η} {store : σ} {file' : θ} {store' : τ} : R file store file' store' →
    Agree R (Storage.commit file store) (Storage.commit file' store')
  release {file : η} {store : σ} {file' : θ} {store' : τ} : R file store file' store' →
    (Storage.release file store).1 = (Storage.release file' store').1 ∧
      S (Storage.release file store).2 (Storage.release file' store').2

def pieces (file : η) (store : σ) : List Nat → List (Except StorageError Bytes)
  | [] => []
  | n :: sizes =>
    let (got, file, store) := Storage.read n file store
    got :: pieces file store sizes

theorem Simulation.pieces_eq {R : η → σ → θ → τ → Prop} {S : σ → τ → Prop} (k : Simulation R S)
    {file : η} {store : σ} {file' : θ} {store' : τ} (h : R file store file' store')
    (sizes : List Nat) : pieces file store sizes = pieces file' store' sizes := by
  induction sizes generalizing file store file' store' with
  | nil => rfl
  | cons n sizes ih =>
    obtain ⟨got, next, left, next', left', hread, hread', h'⟩ := k.read n h
    rw [pieces, pieces, hread, hread']
    exact congrArg _ (ih h')

end Storage
end Tftp
