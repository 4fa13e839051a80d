import Tftp.Proofs.Disk.ReadInside
import Tftp.Proofs.Storage.Cursor
import Tftp.Proofs.Transfer.Simulation

namespace Tftp
namespace Disk
namespace Served

def Tracked (file : Handle) (s : Served) (c : Cursor) (_ : Unit) : Prop :=
  ∃ r k, file = .reader r c.content.length.toUInt64 ∧ r.Ahead s.tree k c.rest ∧ s.Fetchable k

theorem tracked_simulation : Storage.Simulation Tracked fun _ _ => True where
  size := by
    rintro _ s c _ ⟨r, k, rfl, -⟩
    rfl
  read {_ s c _} n := by
    rintro ⟨r, k, rfl, hr, hk⟩
    obtain ⟨r', hread, hr'⟩ := read_reader hr hk c.content.length.toUInt64 n
    refine ⟨.ok (c.rest.take n), .reader r' c.content.length.toUInt64, s, c.advance n, (), ?_, rfl,
      r', k, rfl, ?_, hk⟩
    · simp only [Storage.read, hread, Except.mapError]
    · rwa [c.rest_advance n]
  write block := by
    rintro ⟨r, k, rfl, hr⟩
    exact ⟨_, _, _, _, _, rfl, rfl, r, k, rfl, hr⟩
  commit := by
    rintro _ s c _ ⟨r, k, rfl, hr⟩
    exact ⟨_, _, _, _, _, rfl, rfl, r, k, rfl, hr⟩
  release := by
    rintro _ s c _ ⟨r, k, rfl, -⟩
    exact ⟨rfl, trivial⟩

variable {s : Served} {path : Bytes} {q : Place} {k : Nat} {content : Content}

structure Obtainable (s : Served) (path : Bytes) (k : Nat) : Prop where
  sized : s.faults.unsized? path = none
  opened : s.faults.unopened path = false
  fetchable : s.Fetchable k

theorem openRead_tracked (hs : s.Obtainable path k)
    (found : s.tree.status path = .found q (.file k content))
    (shared : s.tree.content? k = some content) :
    ∃ file, Storage.openRead path s = (.ok file, s) ∧
      Tracked file s { content := content.toList } () := by
  have hahead := Reader.ahead_openAt found shared
  refine ⟨.reader (Reader.openAt s.tree path) content.size.toUInt64, ?_, _, k, ?_, hahead,
    hs.fetchable⟩
  · simp only [Storage.openRead, openRead, found, hs.sized, hs.opened]
    rfl
  · rw [Array.length_toList]

/-- Opening a regular file that can be read gives a reader that hands out its content in order, in
pieces of the sizes asked for, whatever they are. It comes short only at the end, and is empty from
then on. Any transfer that reads from it does what it would do with a cursor over the content, and
is in the same state afterwards. The file has one content under all its names, as every file of a
lawful tree. -/
theorem read_as_cursor (hs : s.Obtainable path k)
    (found : s.tree.status path = .found q (.file k content))
    (shared : s.tree.content? k = some content) :
    ∃ file, Storage.openRead path s = (.ok file, s) ∧
      (∀ sizes, ∃ pieces, Storage.pieces file s sizes = pieces.map .ok ∧
        InOrder content.toList sizes pieces) ∧
      ∀ (peer : Endpoint) (filename : Bytes) (accepted : Accepted) (limits : Limits)
        (events : List Transfer.Event),
        let disk : Step Served Handle :=
          (Transfer.new peer .read filename file accepted limits).idle s
        let memory : Step Unit Cursor :=
          (Transfer.new peer .read filename { content := content.toList } accepted limits).idle ()
        disk.actions events = memory.actions events ∧
          (disk.run events).shown = (memory.run events).shown := by
  obtain ⟨file, ho, htracked⟩ := openRead_tracked hs found shared
  refine ⟨file, ho, fun sizes => ?_, fun peer filename accepted limits events => ?_⟩
  · refine ⟨_, ?_, inOrder_splitLengths content.toList sizes⟩
    rw [tracked_simulation.pieces_eq htracked, Cursor.pieces_eq]
    rfl
  · intro disk memory
    have hfirst : disk.Simulated Tracked (fun _ _ => True) memory :=
      Transfer.simulated_idle
        (u := .new peer .read filename (file, ({ content := content.toList } : Cursor)) accepted
          limits)
        (.of_file rfl htracked) []
    obtain ⟨hrun, hactions⟩ := hfirst.run tracked_simulation events
    exact ⟨hactions, hrun.shown⟩

theorem read_as_cursor_link :
    let path := ascii "/root/sub/link"
    let events : List Transfer.Event := [.start, .ack 7, .timeout, .ack 0, .ack 1, .ack 1]
    let size := Packet.bytes (.optionAck [⟨ascii "tsize", ascii "2"⟩])
    linkedServed.Obtainable path 0 ∧
      linkedServed.tree.status path = .found [ascii "root", ascii "file"] (.file 0 #[65, 66]) ∧
      linkedServed.tree.content? 0 = some #[65, 66] ∧
      ∃ file, Storage.openRead path linkedServed = (.ok file, linkedServed) ∧
        (∃ pieces, Storage.pieces file linkedServed [1, 0, 1, 3, 2] = pieces.map .ok ∧
          InOrder [65, 66] [1, 0, 1, 3, 2] pieces) ∧
        let disk : Step Served Handle := (Transfer.new ⟨2130706433, 4000⟩ .read (ascii "sub/link")
          file ⟨[.transferSize 0]⟩ {}).idle linkedServed
        disk.actions events = [.opened size, .noReply, .reply size,
          .reply (Packet.bytes (.data 1 [65, 66])), .closed [], .noReply] := by
  intro path events size
  have found : linkedServed.tree.status path =
      .found [ascii "root", ascii "file"] (.file 0 #[65, 66]) := by decide +kernel
  have shared : linkedServed.tree.content? 0 = some #[65, 66] := rfl
  have hs : linkedServed.Obtainable path 0 := ⟨rfl, rfl, fun _ => rfl⟩
  obtain ⟨file, ho, hpieces, hruns⟩ := read_as_cursor hs found shared
  exact ⟨hs, found, shared, file, ho, hpieces _,
    (hruns _ _ _ _ events).1.trans (by decide +kernel)⟩

end Served
end Disk
end Tftp
