import Tftp.Proofs.Storage.Kept
import Tftp.Proofs.Storage.Recorded

namespace Tftp

def Call.file : Call → Nat
  | opened n => n
  | read n _ => n
  | wrote n _ _ => n
  | committed n _ => n
  | released n => n

def Call.Uses (n : Nat) : Call → Prop
  | opened _ => False
  | read m _ => m = n
  | wrote m _ _ => m = n
  | committed m _ => m = n
  | released _ => False

theorem Call.Uses.file_eq {n : Nat} {c : Call} (h : c.Uses n) : c.file = n := by
  cases c <;> first | exact h | exact h.elim

theorem Call.Uses.track_eq {n : Nat} {c : Call} (h : c.Uses n) (files : List Nat) :
    Call.track files c = files := by
  cases c <;> first | rfl | exact h.elim

theorem Server.openFile_recorded {σ η : Type} [Storage σ η] (d : Direction) (name : Bytes)
    (r : Recorded σ) :
    openFile d name r = r.enter (openFile d name r.store) := by
  have hr : Storage.resolve name r = Storage.resolve name r.store := rfl
  unfold openFile
  rw [hr]
  cases Storage.resolve name r.store with
  | error e => rfl
  | ok path => cases d <;> rfl

namespace Recorded

variable {σ η : Type} {n next : Nat} {files : List Nat} {calls : List Call}

def callsOn (r : Recorded σ) (n : Nat) : List Call := r.calls.filter fun c => c.file = n

/-- A property of the numbers of the open files, of the next number and of the record, which stays
true as the record grows. -/
structure Lawful (P : List Nat → Nat → List Call → Prop) : Prop where
  perm {files files' : List Nat} {next : Nat} {calls : List Call} :
    files.Perm files' → P files next calls → P files' next calls
  opened {files : List Nat} {next : Nat} {calls : List Call} :
    P files next calls → P (next :: files) (next + 1) (calls ++ [.opened next])
  used {n : Nat} {files : List Nat} {next : Nat} {calls : List Call} {c : Call} :
    c.Uses n → P (n :: files) next calls → P (n :: files) next (calls ++ [c])
  released {n : Nat} {files : List Nat} {next : Nat} {calls : List Call} :
    P (n :: files) next calls → P files next (calls ++ [.released n])

def Says (P : List Nat → Nat → List Call → Prop) (files : List (Numbered η)) (r : Recorded σ) :
    Prop := P (files.map (·.number)) r.files r.calls

section

variable [Storage σ η]

theorem Lawful.kept {P : List Nat → Nat → List Call → Prop} (h : Lawful P) :
    Storage.Kept (fun _ : Recorded σ => True) (fun _ => True) (Says (η := η) P) where
  perm hp := h.perm (hp.map _)
  opened := by
    intro d name files r r' file ho _ _ hi
    rw [Server.openFile_recorded] at ho
    rcases hs : Server.openFile d name r.store with ⟨_ | file', store⟩ <;>
      rw [hs] at ho <;> cases ho
    exact h.opened hi
  refused := by
    intro d name files r r' e ho _ _ hi
    rw [Server.openFile_recorded] at ho
    rcases hs : Server.openFile d name r.store with ⟨_ | file', store⟩ <;>
      rw [hs] at ho <;> cases ho
    exact hi
  read := by
    intro n file file' files r r' got hc hi
    cases hc
    exact h.used (c := .read ..) rfl hi
  write := by
    intro block file file' files r r' done hc hi
    cases hc
    exact h.used (c := .wrote ..) rfl hi
  commit := by
    intro file file' files r r' done hc hi
    cases hc
    exact h.used (c := .committed ..) rfl hi
  release := h.released

end

def Live (files : List Nat) (_ : Nat) (calls : List Call) : Prop :=
  files.Perm (calls.foldl Call.track [])

theorem Live.lawful : Lawful Live where
  perm hp h := hp.symm.trans h
  opened := by
    intro files next calls h
    rw [Live, List.foldl_append, List.foldl_cons, List.foldl_nil]
    exact h.cons next
  used := by
    intro n files next calls c hc h
    rw [Live, List.foldl_append, List.foldl_cons, List.foldl_nil, hc.track_eq]
    exact h
  released := by
    intro n files next calls h
    rw [Live, List.foldl_append, List.foldl_cons, List.foldl_nil]
    simpa [Call.track] using List.Perm.erase n h

/-- The open files are alive, and no two of them have one number. -/
structure Numbering (files : List Nat) (next : Nat) (calls : List Call) : Prop where
  live : Live files next calls
  nodup : files.Nodup
  lt : ∀ n ∈ files, n < next

theorem Numbering.empty : Numbering [] 0 [] := ⟨.refl _, List.nodup_nil, nofun⟩

theorem Numbering.lawful : Lawful Numbering where
  perm hp h :=
    ⟨Live.lawful.perm hp h.live, hp.nodup_iff.1 h.nodup, fun n hn => h.lt n (hp.mem_iff.2 hn)⟩
  opened := by
    intro files next calls h
    have hnew : next ∉ files := fun hn => Nat.lt_irrefl next (h.lt next hn)
    refine ⟨Live.lawful.opened h.live, List.nodup_cons.2 ⟨hnew, h.nodup⟩, fun n hn => ?_⟩
    rcases List.mem_cons.1 hn with rfl | hn
    · exact Nat.lt_succ_self _
    · exact Nat.lt_succ_of_lt (h.lt n hn)
  used hc h := ⟨Live.lawful.used hc h.live, h.nodup, h.lt⟩
  released h := ⟨Live.lawful.released h.live, (List.nodup_cons.1 h.nodup).2,
    fun m hm => h.lt m (List.mem_cons_of_mem _ hm)⟩

/-- Nobody holds the file, and these calls were made on it. -/
structure Aloof (n : Nat) (made : List Call) (files : List Nat) (next : Nat) (calls : List Call) :
    Prop where
  notMem : n ∉ files
  lt : n < next
  calls : calls.filter (fun c => c.file = n) = made

theorem Aloof.lawful (n : Nat) (made : List Call) : Lawful (Aloof n made) where
  perm hp h := ⟨mt hp.mem_iff.2 h.notMem, h.lt, h.calls⟩
  opened := by
    intro files next calls h
    have hne : next ≠ n := Nat.ne_of_gt h.lt
    refine ⟨List.not_mem_cons_of_ne_of_not_mem hne.symm h.notMem, Nat.lt_succ_of_lt h.lt, ?_⟩
    simpa [List.filter_append, Call.file, hne] using h.calls
  used := by
    intro m files next calls c hc h
    have hne : m ≠ n := fun he => h.notMem (he ▸ List.mem_cons_self)
    refine ⟨h.notMem, h.lt, ?_⟩
    simpa [List.filter_append, hc.file_eq, hne] using h.calls
  released := by
    intro m files next calls h
    have hne : m ≠ n := fun he => h.notMem (he ▸ List.mem_cons_self)
    refine ⟨fun hn => h.notMem (List.mem_cons_of_mem m hn), h.lt, ?_⟩
    simpa [List.filter_append, Call.file, hne] using h.calls

theorem Numbering.aloof {r : Recorded σ} (h : Numbering (n :: files) r.files r.calls) :
    Aloof n (r.callsOn n) files r.files r.calls :=
  ⟨(List.nodup_cons.1 h.nodup).1, h.lt n List.mem_cons_self, rfl⟩

theorem Aloof.append {made more : List Call} {next' : Nat} (h : Aloof n made files next calls)
    (own : ∀ c ∈ more, c.file = n) (hle : next ≤ next') :
    Aloof n (made ++ more) files next' (calls ++ more) := by
  have hall : more.filter (fun c => decide (c.file = n)) = more :=
    List.filter_eq_self.2 fun c hc => decide_eq_true (own c hc)
  exact ⟨h.notMem, Nat.lt_of_lt_of_le h.lt hle, by rw [List.filter_append, h.calls, hall]⟩

end Recorded
end Tftp
