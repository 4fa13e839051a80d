import Tftp.Proofs.Transfer.Run
import Tftp.Server

namespace Tftp

def Transfer.files {η : Type} (t : Transfer η) : List η := t.phase.file?.toList

variable {σ η : Type} [Storage σ η]

/-- A property of the open files and their store that no operation breaks. A file is opened only
under a name that is `named` and while the store is `ready` for it. -/
structure Storage.Kept (ready : σ → Prop) (named : Bytes → Prop) (I : List η → σ → Prop) :
    Prop where
  perm {files files' : List η} {store : σ} : files.Perm files' → I files store → I files' store
  opened {d : Direction} {name : Bytes} {files : List η} {store store' : σ} {file : η} :
    Server.openFile d name store = (.ok file, store') → ready store → named name →
      I files store → I (file :: files) store'
  refused {d : Direction} {name : Bytes} {files : List η} {store store' : σ} {e : StorageError} :
    Server.openFile d name store = (.error e, store') → ready store → named name →
      I files store → I files store'
  read {n : Nat} {file file' : η} {files : List η} {store store' : σ}
      {got : Except StorageError Bytes} :
    Storage.read n file store = (got, file', store') → I (file :: files) store →
      I (file' :: files) store'
  write {block : Bytes} {file file' : η} {files : List η} {store store' : σ}
      {done : Except StorageError Unit} :
    Storage.write block file store = (done, file', store') → I (file :: files) store →
      I (file' :: files) store'
  commit {file file' : η} {files : List η} {store store' : σ} {done : Except StorageError Unit} :
    Storage.commit file store = (done, file', store') → I (file :: files) store →
      I (file' :: files) store'
  release {file : η} {files : List η} {store : σ} :
    I (file :: files) store → I files (Storage.release file store).2

namespace Storage.Kept

theorem always (σ η : Type) [Storage σ η] :
    Storage.Kept (fun _ : σ => True) (fun _ => True) fun (_ : List η) _ => True := by
  constructor <;> exact fun _ => by simp

variable {ready : σ → Prop} {named : Bytes → Prop} {I : List η → σ → Prop}
  (k : Storage.Kept ready named I) {t : Transfer η} {file : η} {rest : List η} {store : σ}

include k

theorem sendNextBlock (h : I (file :: rest) store) :
    I ((t.sendNextBlock file store).transfer.files ++ rest) (t.sendNextBlock file store).store := by
  unfold Transfer.sendNextBlock
  split
  · rename_i hr
    exact k.release (k.read hr h)
  · rename_i hr
    exact k.read hr h

theorem illegal (reason : Bytes) (h : I (t.files ++ rest) store) :
    I ((t.illegal store reason).transfer.files ++ rest) (t.illegal store reason).store := by
  unfold Transfer.illegal
  split
  · exact h
  · rename_i hf
    rw [Transfer.files, hf] at h
    exact k.release h

theorem start (h : I (t.files ++ rest) store) :
    I ((t.start store).transfer.files ++ rest) (t.start store).store := by
  unfold Transfer.start
  split
  · rename_i file hp
    rw [Transfer.files, hp] at h
    have hfirst : ∀ u : Transfer η, u.phase = .transferring file →
        I ((u.firstReply file store).transfer.files ++ rest) (u.firstReply file store).store := by
      intro u hu
      unfold Transfer.firstReply
      split
      · split
        · exact k.sendNextBlock h
        · simpa [Transfer.transmit, Transfer.files, hu, Phase.file?] using h
      · simpa [Transfer.transmit, Transfer.files, hu, Phase.file?] using h
    dsimp only
    split <;> exact hfirst _ rfl
  · exact h

theorem onAck (block : UInt16) (h : I (t.files ++ rest) store) :
    I ((t.onAck store block).transfer.files ++ rest) (t.onAck store block).store := by
  unfold Transfer.onAck
  split
  · rename_i file hp
    split
    · exact k.illegal _ h
    · split
      · exact h
      · rw [Transfer.files, hp] at h
        split
        · exact k.release h
        · exact k.sendNextBlock h
  · exact h

theorem acknowledge (size : Nat) (hp : t.phase = .transferring file) (h : I (file :: rest) store) :
    I ((t.acknowledge file store size).transfer.files ++ rest)
      (t.acknowledge file store size).store := by
  unfold Transfer.acknowledge
  dsimp only
  split
  · split
    · rename_i hc
      exact k.release (k.commit hc h)
    · rename_i hc
      exact k.release (k.commit hc h)
  · simpa [Transfer.transmit, Transfer.files, hp, Phase.file?] using h

theorem onData (block : UInt16) (payload : Bytes) (h : I (t.files ++ rest) store) :
    I ((t.onData store block payload).transfer.files ++ rest)
      (t.onData store block payload).store := by
  unfold Transfer.onData
  split
  · rename_i file hp
    split
    · exact k.illegal _ h
    · split
      · exact h
      · split
        · exact k.illegal _ h
        · rw [Transfer.files, hp] at h
          split
          · rename_i hw
            exact k.release (k.write hw h)
          · rename_i hw
            exact k.acknowledge _ rfl (k.write hw h)
  · exact h

theorem onError (code : ErrorCode) (message : Bytes) (h : I (t.files ++ rest) store) :
    I ((t.onError store code message).transfer.files ++ rest)
      (t.onError store code message).store := by
  unfold Transfer.onError
  split
  · exact h
  · rename_i hf
    rw [Transfer.files, hf] at h
    exact k.release h

theorem onTimeout (h : I (t.files ++ rest) store) :
    I ((t.onTimeout store).transfer.files ++ rest) (t.onTimeout store).store := by
  unfold Transfer.onTimeout
  split
  · rename_i file hp
    split
    · rw [Transfer.files, hp] at h
      exact k.release h
    · exact h
  · exact h

theorem react (e : Transfer.Event) (h : I (t.files ++ rest) store) :
    I ((t.react store e).transfer.files ++ rest) (t.react store e).store := by
  cases e with
  | start => exact k.start h
  | ack block => exact k.onAck block h
  | data block payload => exact k.onData block payload h
  | error code message => exact k.onError code message h
  | timeout => exact k.onTimeout h
  | illegal reason => exact k.illegal reason h

theorem discard (h : I (t.files ++ rest) store) : I rest (t.discard store).2 := by
  unfold Transfer.discard
  split
  · rename_i hf
    rw [Transfer.files, hf] at h
    exact h
  · rename_i hf
    rw [Transfer.files, hf] at h
    exact k.release h

end Storage.Kept
end Tftp
