import Tftp.Proofs.Disk.Changes
import Tftp.Proofs.Storage.Kept
import Tftp.Proofs.Transfer.Lines

namespace Tftp
namespace Disk

def Error.quotes : Error → Bytes
  | .escapes name => name
  | .resolvesOutside name => name
  | .notFound path => path
  | .notRegular path => path
  | .cannotStat path _ => path
  | .cannotOpen path => path
  | .alreadyExists path => path
  | .noDirectory path => path
  | .cannotStage path _ => path
  | .cannotCreate path => path
  | .writeFailed path _ => path
  | .flushFailed path _ => path
  | .renameFailed path _ => path
  | .emptyName => []
  | .openForReading => []
  | .openForWriting => []
  | .readFailed => []

def Handle.Clean : Handle → Prop
  | .reader .. => True
  | .upload u => 10 ∉ u.target ∧ 10 ∉ u.staging

/-- The warning that a staging file is left behind, which does not say whose it was. -/
def Leftover (entry : Log.Entry) : Prop :=
  ∃ (path : Bytes) (e : Errno), entry = ⟨.warn,
    ascii "Failed to remove staging file " ++ Served.quoted path ++ ascii ": " ++ e.message⟩

structure Served.Unbroken (s : Served) : Prop where
  root : ∀ n ∈ s.root, 10 ∉ n
  tags : ∀ i, 10 ∉ s.tags i

variable {s s' : Served} {name path tag target : Bytes} {p : Path} {file file' : Handle}
  {done : Bool} {block : Bytes} {n : Nat}

theorem errno_clean (e : Errno) : 10 ∉ e.message := by
  cases e <;> decide +kernel

theorem reason_clean (e : Option Errno) : 10 ∉ reason e := by
  cases e with
  | none => exact List.not_mem_nil
  | some e => exact List.not_mem_append (by decide) (errno_clean e)

theorem Error.text_clean {e : Error} (h : 10 ∉ e.quotes) : 10 ∉ e.text := by
  have quoting : ∀ words : Bytes, 10 ∉ words → 10 ∉ words ++ e.quotes := fun words hw =>
    List.not_mem_append hw h
  cases e with
  | emptyName | openForReading | openForWriting | readFailed => decide +kernel
  | escapes | resolvesOutside | notFound | notRegular | cannotOpen | alreadyExists | noDirectory |
    cannotCreate =>
    exact quoting _ (by decide +kernel)
  | cannotStat path e | cannotStage path e | renameFailed path e =>
    exact List.not_mem_append (List.not_mem_append (quoting _ (by decide +kernel)) (by decide))
      (errno_clean e)
  | writeFailed path e | flushFailed path e =>
    exact List.not_mem_append (List.not_mem_append (quoting _ (by decide +kernel))
      (by decide +kernel)) (reason_clean e)

theorem Error.message_clean {e : Error} (h : 10 ∉ e.quotes) : 10 ∉ e.toStorageError.message :=
  fun hm => e.text_clean h ((List.takeWhile_sublist _).subset hm)

theorem quoted_clean (h : 10 ∉ path) : 10 ∉ Served.quoted path := by
  have hinner : 10 ∉ path.flatMap fun b => if b = 34 ∨ b = 92 then [92, b] else [b] := by
    intro hm
    obtain ⟨b, hb, hm⟩ := List.mem_flatMap.1 hm
    split at hm
    · rename_i hquote
      rcases hquote with rfl | rfl <;> revert hm <;> decide
    · rw [List.mem_singleton.1 hm] at h
      exact h hb
  exact List.not_mem_append (List.not_mem_cons_of_ne_of_not_mem (by decide) hinner) (by decide)

theorem parent_subset (text : Bytes) : parent text ⊆ text := by
  intro b hb
  unfold parent at hb
  dsimp only at hb
  split at hb
  · exact List.mem_reverse.1 ((List.dropWhile_sublist _).subset (List.mem_of_mem_take hb))
  · have hfront := (List.dropWhile_sublist _).subset (List.mem_reverse.1 hb)
    exact List.mem_reverse.1 ((List.dropWhile_sublist _).subset hfront)

theorem filename_subset (text : Bytes) : filename text ⊆ text := fun _ hb =>
  List.mem_reverse.1 ((List.takeWhile_sublist _).subset (List.mem_reverse.1 hb))

theorem stagingName_clean (htarget : 10 ∉ target) (htag : 10 ∉ tag) :
    10 ∉ Served.stagingName target tag := by
  have hparent : 10 ∉ parent target := fun h => htarget (parent_subset target h)
  have hfile : 10 ∉ 46 :: filename target ++ ascii ".tftpff-" ++ tag :=
    List.not_mem_append (List.not_mem_append (List.not_mem_cons_of_ne_of_not_mem (by decide)
      fun h => htarget (filename_subset target h)) (by decide)) htag
  unfold Served.stagingName join
  split
  · exact List.not_mem_append hparent hfile
  · exact List.not_mem_append hparent (List.not_mem_cons_of_ne_of_not_mem (by decide) hfile)

namespace Served

theorem resolved_clean (hs : s.Unbroken) (hname : 10 ∉ name) (h : s.resolve name = .ok p) :
    10 ∉ p.text := by
  intro hb
  rcases mem_text_of_resolve h hb with hb | hb | ⟨n, hn, hb⟩
  · revert hb
    decide
  · exact hname hb
  · exact hs.root n hn hb

theorem resolve_quotes {e : Error} (hname : 10 ∉ name) (h : s.resolve name = .error e) :
    10 ∉ e.quotes := by
  unfold resolve at h
  dsimp only at h
  split at h
  · cases h
    exact List.not_mem_nil
  · split at h
    · cases h
      exact hname
    · split at h
      · cases h
        exact hname
      · split at h
        · cases h
        · cases h
          exact hname

theorem openRead_quotes {e : Error} (hpath : 10 ∉ path) (h : s.openRead path = .error e) :
    10 ∉ e.quotes := by
  cases refusesRead_of_openRead h with
  | notFound | notRegular | cannotStat | cannotOpen => exact hpath

theorem refusal_quotes {e : Error} (hpath : 10 ∉ path) (h : s.refusal? path = some e) :
    10 ∉ e.quotes := by
  unfold refusal? at h
  split at h
  · split at h
    · cases h
      exact hpath
    · split at h
      · cases h
      · cases h
        exact hpath
  · cases h

theorem openStaging_quotes {t t' : Tree} {truncate : Bool} {staging : Bytes} {e : Error}
    (hpath : 10 ∉ path) (h : openStaging t truncate path staging = (.error e, t')) :
    10 ∉ e.quotes := by
  unfold openStaging at h
  split at h <;> cases h
  exact hpath

theorem stage_quotes {truncate : Bool} {staging : Bytes} {t : Tree} {e : Error}
    (hpath : 10 ∉ path) (h : s.stage truncate path staging = (.error e, t)) : 10 ∉ e.quotes := by
  unfold stage at h
  split at h
  · split at h
    · cases h
      exact hpath
    · exact openStaging_quotes hpath h
  · exact openStaging_quotes hpath h

theorem openWrite_clean (hs : s.Unbroken) (truncate : Bool) (hpath : 10 ∉ path) :
    (∀ file s', s.openWrite truncate path = (.ok file, s') → file.Clean) ∧
      ∀ e s', s.openWrite truncate path = (.error e, s') → 10 ∉ e.quotes := by
  unfold openWrite
  split
  · rename_i e hr
    refine ⟨nofun, fun e' s' h => ?_⟩
    cases h
    exact refusal_quotes hpath hr
  · split
    · refine ⟨nofun, fun e' s' h => ?_⟩
      cases h
      exact fun hm => hpath (parent_subset path hm)
    · dsimp only
      rcases hstage : s.stage truncate path (stagingName path (s.tags s.drawn)) with ⟨e | w, t⟩
      · refine ⟨nofun, fun e' s' h => ?_⟩
        cases h
        exact stage_quotes hpath hstage
      · refine ⟨fun file s' h => ?_, nofun⟩
        cases h
        exact ⟨hpath, stagingName_clean hpath (hs.tags _)⟩

theorem openFile_clean (hs : s.Unbroken) (hname : 10 ∉ name) (d : Direction) :
    (∀ file s', Server.openFile d name s = (.ok file, s') → file.Clean) ∧
      ∀ e s', Server.openFile d name s = (.error e, s') → 10 ∉ e.message := by
  cases hr : s.resolve name with
  | error e =>
    rw [openFile_unresolved hr]
    refine ⟨nofun, fun e' s' h => ?_⟩
    cases h
    exact Error.message_clean (resolve_quotes hname hr)
  | ok p =>
    have hpath := resolved_clean hs hname hr
    cases d with
    | read =>
      rw [openFile_read_ok hr]
      cases ho : s.openRead p.text with
      | error e =>
        refine ⟨nofun, fun e' s' h => ?_⟩
        cases h
        exact Error.message_clean (openRead_quotes hpath ho)
      | ok file =>
        obtain ⟨reader, size, rfl⟩ := openRead_reader ho
        refine ⟨fun file s' h => ?_, nofun⟩
        cases h
        trivial
    | write =>
      rw [openFile_write_ok hr]
      obtain ⟨hok, herror⟩ := openWrite_clean hs true hpath
      rcases ho : s.openWrite true p.text with ⟨e | file, s''⟩
      · refine ⟨nofun, fun e' s' h => ?_⟩
        cases h
        exact Error.message_clean (herror _ _ ho)
      · refine ⟨fun file' s' h => ?_, nofun⟩
        cases h
        exact hok _ _ ho

theorem Act.clean (a : s.Act done file file' s') (h : file.Clean) : file'.Clean := by
  cases a with
  | reader => trivial
  | upload follows | commit follows =>
    rw [Handle.Clean, follows.target, follows.staging]
    exact h

theorem read_quotes {e : Error} (h : s.read n file = (.error e, file', s')) : 10 ∉ e.quotes := by
  unfold read at h
  split at h
  · cases h
    exact List.not_mem_nil
  · split at h <;> cases h
    exact List.not_mem_nil

theorem write_quotes {e : Error} (hfile : file.Clean)
    (h : s.write block file = (.error e, file', s')) : 10 ∉ e.quotes := by
  unfold write at h
  split at h
  · cases h
    exact List.not_mem_nil
  · split at h <;> cases h
    exact hfile.2

theorem commit_quotes {e : Error} (hfile : file.Clean)
    (h : s.commit file = (.error e, file', s')) : 10 ∉ e.quotes := by
  unfold commit at h
  split at h
  · cases h
  · split at h
    · cases h
    · unfold commitUpload at h
      split at h
      · cases h
        exact hfile.2
      · split at h <;> cases h
        exact hfile.1

theorem release_leftover {entry : Log.Entry} (h : entry ∈ (s.release file).1) :
    Leftover entry ∧ (file.Clean → 10 ∉ entry.text) := by
  unfold release at h
  split at h
  · cases h
  · rename_i u
    split at h
    · cases h
    · dsimp only at h
      split at h
      · cases h
      · cases h
      · rename_i e _ _
        rw [List.mem_singleton.1 h]
        refine ⟨⟨u.staging, e, rfl⟩, fun hfile => ?_⟩
        exact List.not_mem_append (List.not_mem_append (List.not_mem_append (by decide +kernel)
          (quoted_clean hfile.2)) (by decide)) (errno_clean e)

end Served

theorem kept_clean : Storage.Kept (fun _ : Served => False) (fun _ => True)
    fun (files : List Handle) _ => ∀ file ∈ files, file.Clean := by
  have kept : ∀ {done : Bool} {file file' : Handle} {files : List Handle} {s s' : Served},
      s.Act done file file' s' → (∀ f ∈ file :: files, f.Clean) → ∀ f ∈ file' :: files, f.Clean :=
    fun a h => List.forall_mem_cons.2
      ⟨a.clean (List.forall_mem_cons.1 h).1, (List.forall_mem_cons.1 h).2⟩
  exact {
    perm := fun hp h file hf => h file (hp.mem_iff.2 hf)
    opened := fun _ hr => hr.elim
    refused := fun _ hr => hr.elim
    read := fun hr => kept (Served.act_of_read hr)
    write := fun hw => kept (Served.act_of_write hw)
    commit := fun hc => kept (Served.act_of_commit hc).choose_spec
    release := fun h => (List.forall_mem_cons.1 h).2 }

end Disk
end Tftp
