import Tftp.Storage.Memory

namespace Tftp

structure Storage.Writable {σ η : Type} [Storage σ η] (P : η → σ → Prop) : Prop where
  write {file : η} {store : σ} (block : Bytes) : P file store →
    ∃ file' store', Storage.write block file store = (.ok (), file', store') ∧ P file' store'
  commit {file : η} {store : σ} : P file store →
    ∃ file' store', Storage.commit file store = (.ok (), file', store')

/-- Files from which the rest of a content can be read, in pieces of any size. -/
structure Storage.Readable {σ η : Type} [Storage σ η] (P : Bytes → η → σ → Prop) : Prop where
  read {rest : Bytes} {file : η} {store : σ} (n : Nat) : P rest file store →
    ∃ file' store', Storage.read n file store = (.ok (rest.take n), file', store') ∧
      P (rest.drop n) file' store'

/-- Files that do all that is asked of them. What is read may be the end of a file at any time. -/
structure Storage.Reliable {σ η : Type} [Storage σ η] (P : η → σ → Prop) : Prop where
  read {file : η} {store : σ} (n : Nat) : P file store →
    ∃ payload file' store', Storage.read n file store = (.ok payload, file', store') ∧
      payload.length ≤ n ∧ P file' store'
  write {file : η} {store : σ} (block : Bytes) : P file store →
    ∃ file' store', Storage.write block file store = (.ok (), file', store') ∧ P file' store'
  commit {file : η} {store : σ} : P file store →
    ∃ file' store', Storage.commit file store = (.ok (), file', store') ∧ P file' store'

namespace Memory

@[simp] theorem Files.get_put (files : Files) (name : Bytes) (file : File) :
    (files.put name file).get name = file := by
  induction files with
  | nil => simp [put, get, get?]
  | cons f files ih =>
    rw [put]
    split
    · simp [get, get?]
    · rename_i h
      have hn : (name == f.1) = false := by simpa using Ne.symm h
      have hskip : ((f.1, f.2) :: put name file files).lookup name =
          (put name file files).lookup name := by
        rw [List.lookup_cons, hn]
      exact (congrArg (·.getD {}) hskip).trans ih

variable {h : Handle} {files : Files}

theorem write_ok (hw : (files.get h.name).writeFault = none) (block : Bytes) :
    Storage.write block h files = (.ok (), { h with written := block :: h.written },
      files.put h.name { files.get h.name with
        writes := (files.get h.name).writes + 1
        written := block :: (files.get h.name).written }) := by
  simp only [Storage.write, Files.write, hw]
  rfl

theorem commit_ok (hc : (files.get h.name).commitFault = none) :
    Storage.commit h files = (.ok (), h, files.put h.name { files.get h.name with
      content := some h.written.reverse.flatten
      commits := (files.get h.name).commits + 1 }) := by
  simp only [Storage.commit, Files.commit, hc]
  rfl

theorem read_ok (hr : (files.get h.name).readFault = none) (n : Nat) :
    Storage.read n h files = (.ok (h.rest.take n), { h with rest := h.rest.drop n },
      files.put h.name { files.get h.name with reads := (files.get h.name).reads + 1 }) := by
  simp only [Storage.read, Files.read, hr]
  rfl

theorem writable : Storage.Writable fun (h : Handle) (files : Files) =>
    (files.get h.name).writeFault = none ∧ (files.get h.name).commitFault = none where
  write block hp := ⟨_, _, write_ok hp.1 block, by simp [hp.1, hp.2]⟩
  commit hp := ⟨_, _, commit_ok hp.2⟩

theorem readable : Storage.Readable fun (rest : Bytes) (h : Handle) (files : Files) =>
    h.rest = rest ∧ (files.get h.name).readFault = none where
  read n hp := by
    rw [← hp.1]
    exact ⟨_, _, read_ok hp.2 n, rfl, by simp [hp.2]⟩

theorem reliable : Storage.Reliable fun (h : Handle) (files : Files) =>
    (files.get h.name).readFault = none ∧ (files.get h.name).writeFault = none ∧
      (files.get h.name).commitFault = none where
  read n hp := ⟨_, _, _, read_ok hp.1 n, List.length_take_le _ _, by simpa using hp⟩
  write block hp := ⟨_, _, write_ok hp.2.1 block, by simpa using hp⟩
  commit hp := ⟨_, _, commit_ok hp.2.2, by simpa using hp⟩

end Memory
end Tftp
