import Mathlib.Algebra.GroupWithZero.Nat
import Mathlib.Tactic.Common
import Tftp.Disk.Served
import Tftp.Proofs.Storage.Reliable

namespace Tftp
namespace Disk
namespace Reader

variable {r : Reader} {t : Tree} {content : Content} {rest : Bytes} {k n : Nat}

/-- A reader of the file `k` of which `rest` is yet to be taken, be it fetched already or not. -/
structure Ahead (r : Reader) (t : Tree) (k : Nat) (rest : Bytes) : Prop where
  source : r.source = .file k
  file : ∃ content, t.content? k = some content ∧
    r.buffer ++ content.toList.drop r.position = rest
  sound : r.broken = false
  failed : r.failed = r.ended
  ended : r.ended → rest = []

theorem ahead_openAt {text : Bytes} {q : Place} (hs : t.status text = .found q (.file k content))
    (hc : t.content? k = some content) : (openAt t text).Ahead t k content.toList := by
  rw [openAt, hs]
  exact ⟨rfl, ⟨content, hc, by simp⟩, rfl, rfl, nofun⟩

theorem le_ahead (r : Reader) (n : Nat) : n - r.buffer.length ≤ r.ahead n := by
  unfold ahead
  split <;> omega

theorem fetch_append (content : Content) (position count : Nat) :
    (content.extract position (position + count)).toList ++ content.toList.drop (position +
      (content.extract position (position + count)).toList.length) =
        content.toList.drop position := by
  have hfetch : (content.extract position (position + count)).toList =
      (content.toList.drop position).take count := by
    simp [List.extract_eq_take_drop]
  rw [hfetch, ← List.drop_drop]
  generalize content.toList.drop position = rest
  rcases Nat.le_total count rest.length with h | h
  · rw [List.length_take_of_le h, List.take_append_drop]
  · rw [List.take_of_length_le h, List.drop_length, List.append_nil]

theorem drop_of_short (r : Reader) (content : Content) (n : Nat)
    (short : (r.buffer ++ (content.extract r.position (r.position + r.ahead n)).toList).length < n) :
    content.toList.drop
      (r.position + (content.extract r.position (r.position + r.ahead n)).toList.length) = [] := by
  have hahead := r.le_ahead n
  have hcount : (content.extract r.position (r.position + r.ahead n)).toList.length =
      min (r.ahead n) (content.toList.length - r.position) := by
    rw [← List.length_drop]
    simp
  rw [List.length_append] at short
  exact List.drop_eq_nil_of_le (by omega)

theorem takeFrom_ahead (source : r.source = .file k) (hc : t.content? k = some content)
    (hrest : r.buffer ++ content.toList.drop r.position = rest) (sound : r.broken = false)
    (failed : r.failed = false) (ended : r.ended = false) :
    (r.takeFrom content n).1 = rest.take n ∧
      (r.takeFrom content n).2.Ahead t k (rest.drop n) := by
  unfold takeFrom
  dsimp only
  split
  · rename_i held
    have hn : n ≤ r.buffer.length := by
      rw [List.length_take] at held
      omega
    rw [← hrest, List.take_append_of_le_length hn, List.drop_append_of_le_length hn]
    exact ⟨rfl, source, ⟨content, hc, rfl⟩, sound, failed.trans ended.symm,
      fun h => by simp [ended] at h⟩
  · have hall := fetch_append content r.position (r.ahead n)
    have hshort := drop_of_short r content n
    generalize (content.extract r.position (r.position + r.ahead n)).toList = fetched
      at hall hshort
    rw [← hall, ← List.append_assoc] at hrest
    by_cases h : n ≤ (r.buffer ++ fetched).length
    · rw [← hrest, List.take_append_of_le_length h, List.drop_append_of_le_length h]
      refine ⟨rfl, source, ⟨content, hc, rfl⟩, sound, rfl, fun he => ?_⟩
      exact absurd h (Nat.not_le_of_lt (of_decide_eq_true he))
    · have h := Nat.lt_of_not_le h
      rw [hshort h, List.append_nil] at hrest
      rw [hrest] at h hshort ⊢
      refine ⟨rfl, source, ⟨content, hc, ?_⟩, sound, rfl, fun _ => ?_⟩
      · rw [hshort h, List.append_nil]
      · exact List.drop_eq_nil_of_le (Nat.le_of_lt h)

theorem Ahead.read (h : r.Ahead t k rest) (faults : Faults) (n : Nat) :
    (∃ r', r.read t faults n = (some (rest.take n), r') ∧ r'.Ahead t k (rest.drop n)) ∨
      (∃ r', r.read t faults n = (none, r')) ∧ ∃ position, faults.unreadable k position := by
  obtain ⟨content, hc, hrest⟩ := h.file
  cases ended : r.ended with
  | true =>
    refine .inl ⟨r, ?_, ?_⟩
    · simp [Reader.read, ended, h.ended ended]
    · rw [h.ended ended, List.drop_nil]
      exact h.ended ended ▸ h
  | false =>
    have failed := h.failed.trans ended
    by_cases hfault : r.buffer.length < n ∧ faults.unreadable k r.position
    · refine .inr ⟨⟨{ r with broken := true }, ?_⟩, r.position, hfault.2⟩
      simp [Reader.read, ended, failed, h.sound, Reader.take, h.source, hfault]
    · obtain ⟨got, next⟩ := takeFrom_ahead (n := n) h.source hc hrest h.sound failed ended
      refine .inl ⟨_, ?_, next⟩
      simp [Reader.read, ended, failed, h.sound, Reader.take, h.source, hfault, hc, got, next.sound]

end Reader

inductive Error.RefusesRead (path : Bytes) : Error → Prop
  | notFound : RefusesRead path (.notFound path)
  | notRegular : RefusesRead path (.notRegular path)
  | cannotStat (e : Errno) : RefusesRead path (.cannotStat path e)
  | cannotOpen : RefusesRead path (.cannotOpen path)

namespace Served

variable {r : Reader} {s : Served} {rest : Bytes} {k : Nat}

theorem openRead_cases (s : Served) (path : Bytes) :
    (∃ e, s.openRead path = .error e ∧ e.RefusesRead path) ∨
      ∃ q k content, s.tree.status path = .found q (.file k content) ∧
        s.openRead path = .ok (.reader (Reader.openAt s.tree path) content.size.toUInt64) := by
  unfold openRead
  split
  · rename_i q k content hs
    split
    · exact .inl ⟨_, rfl, .cannotStat _⟩
    · split
      · exact .inl ⟨_, rfl, .cannotOpen⟩
      · exact .inr ⟨q, k, content, hs, rfl⟩
  · exact .inl ⟨_, rfl, .notRegular⟩
  · exact .inl ⟨_, rfl, .notFound⟩

theorem refusesRead_of_openRead {path : Bytes} {e : Error} (h : s.openRead path = .error e) :
    e.RefusesRead path := by
  rcases s.openRead_cases path with ⟨e', he, hrefuses⟩ | ⟨q, k, content, -, ho⟩
  · cases he.symm.trans h
    exact hrefuses
  · cases ho.symm.trans h

theorem openRead_reader {path : Bytes} {file : Handle} (h : s.openRead path = .ok file) :
    ∃ reader size, file = .reader reader size := by
  rcases s.openRead_cases path with ⟨e, he, -⟩ | ⟨q, k, content, -, ho⟩
  · cases he.symm.trans h
  · cases ho.symm.trans h
    exact ⟨_, _, rfl⟩

def Fetchable (s : Served) (k : Nat) : Prop := ∀ position, s.faults.unreadable k position = false

theorem read_reader_eq (s : Served) (n : Nat) (r : Reader) (size : UInt64) :
    ∃ got r', s.read n (.reader r size) = (got, .reader r' size, s) := by
  unfold Served.read
  dsimp only
  split <;> exact ⟨_, _, rfl⟩

theorem read_cases (h : r.Ahead s.tree k rest) (size : UInt64) (n : Nat) :
    (∃ r', s.read n (.reader r size) = (.ok (rest.take n), .reader r' size, s) ∧
        r'.Ahead s.tree k (rest.drop n)) ∨
      (∃ r', s.read n (.reader r size) = (.error .readFailed, .reader r' size, s)) ∧
        ¬ s.Fetchable k := by
  rcases h.read s.faults n with ⟨r', hread, hr'⟩ | ⟨⟨r', hread⟩, position, hfault⟩
  · exact .inl ⟨r', by simp [Served.read, hread], hr'⟩
  · exact .inr ⟨⟨r', by simp [Served.read, hread]⟩, fun hall => by simp [hall position] at hfault⟩

theorem read_reader (h : r.Ahead s.tree k rest) (hk : s.Fetchable k) (size : UInt64) (n : Nat) :
    ∃ r', s.read n (.reader r size) = (.ok (rest.take n), .reader r' size, s) ∧
      r'.Ahead s.tree k (rest.drop n) :=
  (read_cases h size n).resolve_right fun hfault => hfault.2 hk

def Reads (rest : Bytes) (file : Handle) (s : Served) : Prop :=
  ∃ r size k, file = .reader r size ∧ r.Ahead s.tree k rest ∧ s.Fetchable k

theorem readable : Storage.Readable Reads where
  read n h := by
    obtain ⟨r, size, k, rfl, hr, hk⟩ := h
    obtain ⟨r', hread, hr'⟩ := read_reader hr hk size n
    exact ⟨_, _, by simp [Storage.read, hread, Except.mapError], r', size, k, rfl, hr', hk⟩

/-- All that comes out of a file that is read in pieces of certain sizes, and the failure that this
ends with. -/
def readAll (s : Served) (file : Handle) : List Nat → Bytes × Option Error
  | [] => ([], none)
  | n :: sizes =>
    match s.read n file with
    | (.error e, _) => ([], some e)
    | (.ok piece, file, s) =>
      let (rest, e) := s.readAll file sizes
      (piece ++ rest, e)

/-- What comes out of a file is its content from the start on. It is all that was asked for, unless
the file cannot be fetched. -/
structure FromStart (s : Served) (k : Nat) (content : Bytes) (sizes : List Nat)
    (got : Bytes × Option Error) : Prop where
  starts : got.1 <+: content
  complete : got.2 = none → got.1 = content.take sizes.sum
  failure : ∀ e ∈ got.2, e = .readFailed ∧ ¬ s.Fetchable k

theorem fromStart_readAll (h : r.Ahead s.tree k rest) (size : UInt64) (sizes : List Nat) :
    s.FromStart k rest sizes (s.readAll (.reader r size) sizes) := by
  induction sizes generalizing r rest with
  | nil => exact ⟨List.nil_prefix, by simp [readAll], nofun⟩
  | cons n sizes ih =>
    rcases read_cases h size n with ⟨r', hread, hr'⟩ | ⟨⟨r', hread⟩, hfault⟩
    · obtain ⟨hstarts, hcomplete, hfailure⟩ := ih hr'
      rw [readAll, hread]
      refine ⟨?_, fun hnone => ?_, hfailure⟩
      · have hjoined : rest.take n ++ (s.readAll (.reader r' size) sizes).1 <+:
            rest.take n ++ rest.drop n := (List.prefix_append_right_inj _).2 hstarts
        rwa [List.take_append_drop] at hjoined
      · rw [List.sum_cons, List.take_add, ← hcomplete hnone]
    · rw [readAll, hread]
      exact ⟨List.nil_prefix, nofun, fun e he => by
        cases he
        exact ⟨rfl, hfault⟩⟩

end Served
end Disk
end Tftp
