import Tftp.Disk.Change

namespace Tftp
namespace Disk

def bufferSize : Nat := 8191

def directSize : Nat := 1024

/-- What the system refuses to those who read, whatever stands in the tree. -/
structure Faults where
  /-- Why the size of what stands at a path cannot be told. -/
  unsized? : Bytes → Option Errno := fun _ => none
  unopened : Bytes → Bool := fun _ => false
  /-- From where in a file nothing can be fetched. -/
  unreadable : Nat → Nat → Bool := fun _ _ => false

inductive Source
  | file (serial : Nat)
  | device (d : Device)
  | directory
  | nothing
  deriving DecidableEq

structure Reader where
  source : Source
  position : Nat := 0
  buffer : Bytes := []
  ended : Bool := false
  failed : Bool := false
  broken : Bool := false
  deriving DecidableEq

namespace Reader

def openAt (t : Tree) (text : Bytes) : Reader :=
  match t.status text with
  | .found _ (.file k _) => { source := .file k }
  | .found _ (.device d) => { source := .device d }
  | .found _ .dir => { source := .directory }
  | _ => { source := .nothing, failed := true }

/-- How much to fetch so that `n` bytes can be taken: a whole buffer, or just what is missing of
a number that no buffer holds. -/
def ahead (r : Reader) (n : Nat) : Nat := if n ≤ bufferSize then bufferSize else n - r.buffer.length

def takeFrom (r : Reader) (content : Content) (n : Nat) : Bytes × Reader :=
  let held := r.buffer.take n
  if held.length = n then (held, { r with buffer := r.buffer.drop n })
  else
    let fetched := (content.extract r.position (r.position + r.ahead n)).toList
    let all := r.buffer ++ fetched
    let short := decide (all.length < n)
    (all.take n,
      { r with
        position := r.position + fetched.length
        buffer := all.drop n
        ended := short
        failed := short })

def take (r : Reader) (t : Tree) (faults : Faults) (n : Nat) : Bytes × Reader :=
  match r.source with
  | .file serial =>
    if r.buffer.length < n ∧ faults.unreadable serial r.position then ([], { r with broken := true })
    else r.takeFrom ((t.content? serial).getD #[]) n
  | .device .null => r.takeFrom #[] n
  | .device _ => (List.replicate n 0, r)
  | .directory => ([], if n = 0 then r else { r with broken := true })
  | .nothing => ([], r)

/-- The next bytes, none after the end; `none` where the file cannot be read. -/
def read (r : Reader) (t : Tree) (faults : Faults) (n : Nat) : Option Bytes × Reader :=
  if r.ended then (some [], r)
  else
    let (got, r) :=
      if r.failed || r.broken then ([], { r with failed := true }) else r.take t faults n
    if r.broken then (none, r) else (some got, r)

end Reader

structure Writer where
  sink : Sink
  append : Bool := false
  position : Nat := 0
  /-- The blocks not yet passed on, the latest first. -/
  pending : List Bytes := []
  room : Nat := bufferSize
  failed : Bool := false
  deriving DecidableEq

abbrev Cause := Option Errno

namespace Writer

def openAt (t : Tree) (truncate : Bool) (text : Bytes) : Except Errno (Writer × Tree) :=
  match t.create truncate text with
  | .error e => .error e
  | .ok (sink, t) => .ok ({ sink := sink, append := !truncate }, t)

def failing : Writer := { sink := .closed, failed := true }

def pendingBytes (w : Writer) : Bytes := w.pending.reverse.flatten

def emptied (w : Writer) : Writer := { w with pending := [], room := bufferSize }

def store (w : Writer) (t : Tree) (serial : Nat) (bytes : Bytes) : Writer × Tree :=
  if bytes.isEmpty then (w, t)
  else
    let position := if w.append then ((t.content? serial).getD #[]).size else w.position
    ({ w with position := position + bytes.length }, t.writeAt serial position bytes)

def flush (w : Writer) (t : Tree) (bytes : Bytes) : Except Cause Unit × Writer × Tree :=
  let all := w.pendingBytes ++ bytes
  match w.sink with
  | .file serial =>
    let (w, t) := w.store t serial all
    (.ok (), w.emptied, t)
  | .device .full =>
    if all.isEmpty then (.ok (), w, t)
    else (.error (some .noSpace), { w with failed := true }, t)
  | .device _ => (.ok (), w.emptied, t)
  | .closed =>
    if all.isEmpty then (.ok (), w, t) else (.error none, { w with failed := true }, t)

def write (w : Writer) (t : Tree) (bytes : Bytes) : Except Cause Unit × Writer × Tree :=
  if w.failed then (.error none, w, t)
  else if w.sink ≠ .closed ∧ bytes.length < min directSize w.room then
    (.ok (), { w with pending := bytes :: w.pending, room := w.room - bytes.length }, t)
  else w.flush t bytes

def close (w : Writer) (t : Tree) : Except Cause Unit × Writer × Tree :=
  if w.sink = .closed then (.error none, { w with failed := true }, t)
  else
    let (r, w, t) := w.flush t []
    let closed := { w with sink := .closed }.emptied
    match r with
    | .error e => (.error e, closed, t)
    | .ok () => (if w.failed then .error none else .ok (), closed, t)

end Writer
end Disk
end Tftp
