import Tftp.Proofs.Storage.Recorded

namespace Tftp

variable {σ η τ θ : Type}

/-- Every operation does to an image what it does to the store and the file behind it. -/
structure Storage.Image [Storage σ η] [Storage τ θ] (f : η → θ) (g : σ → τ) : Prop where
  resolve (name : Bytes) (s : σ) : Storage.resolve name (g s) = Storage.resolve name s
  openRead (path : Bytes) (s : σ) :
    Storage.openRead path (g s) = (Storage.openRead path s).map (·.map f) g
  openWrite (path : Bytes) (s : σ) :
    Storage.openWrite path (g s) = (Storage.openWrite path s).map (·.map f) g
  size (file : η) (s : σ) : Storage.size (f file) (g s) = Storage.size file s
  read (n : Nat) (file : η) (s : σ) :
    Storage.read n (f file) (g s) = (Storage.read n file s).map id (.map f g)
  write (block : Bytes) (file : η) (s : σ) :
    Storage.write block (f file) (g s) = (Storage.write block file s).map id (.map f g)
  commit (file : η) (s : σ) :
    Storage.commit (f file) (g s) = (Storage.commit file s).map id (.map f g)
  release (file : η) (s : σ) :
    Storage.release (f file) (g s) = (Storage.release file s).map id g

theorem Recorded.image [Storage σ η] :
    Storage.Image (Numbered.file (η := η)) (Recorded.store (σ := σ)) where
  resolve _ _ := rfl
  openRead path r := by
    change _ = (r.enter (Storage.openRead path r.store)).map _ _
    rcases Storage.openRead path r.store with ⟨_ | file, store⟩ <;> rfl
  openWrite path r := by
    change _ = (r.enter (Storage.openWrite path r.store)).map _ _
    rcases Storage.openWrite path r.store with ⟨_ | file, store⟩ <;> rfl
  size _ _ := rfl
  read _ _ _ := rfl
  write _ _ _ := rfl
  commit _ _ := rfl
  release _ _ := rfl

end Tftp
