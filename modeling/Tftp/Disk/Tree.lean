import Tftp.Disk.Path

namespace Tftp
namespace Disk

inductive Device
  | full
  | null
  | zero
  deriving DecidableEq

abbrev Content := Array UInt8

inductive Node
  | dir
  | file (serial : Nat) (content : Content)
  | link (target : Bytes)
  | device (d : Device)
  deriving DecidableEq

inductive Errno
  | noEntry
  | inputOutput
  | noMemory
  | denied
  | busy
  | exists
  | otherDevice
  | notDirectory
  | isDirectory
  | invalid
  | noSpace
  | nameTooLong
  | notEmpty
  | loop
  | overflow
  | notSupported
  | stale
  deriving DecidableEq

namespace Errno

def number : Errno → Int
  | .noEntry => 2
  | .inputOutput => 5
  | .noMemory => 12
  | .denied => 13
  | .busy => 16
  | .exists => 17
  | .otherDevice => 18
  | .notDirectory => 20
  | .isDirectory => 21
  | .invalid => 22
  | .noSpace => 28
  | .nameTooLong => 36
  | .notEmpty => 39
  | .loop => 40
  | .overflow => 75
  | .notSupported => 95
  | .stale => 116

def message : Errno → Bytes
  | .noEntry => ascii "No such file or directory"
  | .inputOutput => ascii "Input/output error"
  | .noMemory => ascii "Cannot allocate memory"
  | .denied => ascii "Permission denied"
  | .busy => ascii "Device or resource busy"
  | .exists => ascii "File exists"
  | .otherDevice => ascii "Invalid cross-device link"
  | .notDirectory => ascii "Not a directory"
  | .isDirectory => ascii "Is a directory"
  | .invalid => ascii "Invalid argument"
  | .noSpace => ascii "No space left on device"
  | .nameTooLong => ascii "File name too long"
  | .notEmpty => ascii "Directory not empty"
  | .loop => ascii "Too many levels of symbolic links"
  | .overflow => ascii "Value too large for defined data type"
  | .notSupported => ascii "Operation not supported"
  | .stale => ascii "Stale file handle"

end Errno

namespace Node

def content? (n : Node) (serial : Nat) : Option Content :=
  match n with
  | .file k content => if k = serial then some content else none
  | _ => none

def modify (n : Node) (serial : Nat) (f : Content → Content) : Node :=
  match n with
  | .file k content => .file k (if k = serial then f content else content)
  | n => n

def file? : Node → Option (Nat × Content)
  | .file k content => some (k, content)
  | _ => none

end Node

structure Tree where
  entries : List (Place × Node) := []
  /-- Files that have lost their names, by serial number. -/
  nameless : List (Nat × Content) := []
  /-- The places below which other devices begin. -/
  mounts : List Place := []
  cwd : Place := []
  serial : Nat := 0

def overwrite (position : Nat) (new : Bytes) (old : Content) : Content :=
  if old.size ≤ position then old ++ Array.replicate (position - old.size) 0 ++ new
  else old.extract 0 position ++ new ++ old.extract (position + new.length)

namespace Tree

def node? (t : Tree) : Place → Option Node
  | [] => some .dir
  | p => t.entries.lookup p

def add (t : Tree) (p : Place) (n : Node) : Tree := { t with entries := (p, n) :: t.entries }

def addFile (t : Tree) (p : Place) : Tree :=
  { t.add p (.file t.serial #[]) with serial := t.serial + 1 }

/-- Keeps the entries at certain places. Files that stood elsewhere go on without a name. -/
def keep (t : Tree) (here : Place → Bool) : Tree :=
  { t with
    entries := t.entries.filter fun (q, _) => here q
    nameless := (t.entries.filter fun (q, _) => !here q).filterMap (·.2.file?) ++ t.nameless }

def erase (t : Tree) (p : Place) : Tree := t.keep fun q => q ≠ p

def prune (t : Tree) (p : Place) : Tree := t.keep fun q => !p.isPrefixOf q

def hasChildren (t : Tree) (p : Place) : Bool :=
  t.entries.any fun (q, _) => p.isPrefixOf q && p.length < q.length

def move (t : Tree) (p q : Place) : Tree :=
  let t := t.erase q
  { t with
    entries := t.entries.map fun (r, n) =>
      if p.isPrefixOf r then (q ++ r.drop p.length, n) else (r, n) }

def content? (t : Tree) (serial : Nat) : Option Content :=
  (t.entries.findSome? fun (_, n) => n.content? serial).or (t.nameless.lookup serial)

def modify (t : Tree) (serial : Nat) (f : Content → Content) : Tree :=
  { t with
    entries := t.entries.map fun (p, n) => (p, n.modify serial f)
    nameless := t.nameless.map fun (k, content) => (k, if k = serial then f content else content) }

def setContent (t : Tree) (serial : Nat) (content : Content) : Tree :=
  t.modify serial fun _ => content

def writeAt (t : Tree) (serial position : Nat) (bytes : Bytes) : Tree :=
  t.modify serial (overwrite position bytes)

def mount? (t : Tree) (p : Place) : Option Place := t.mounts.find? fun m => m.isPrefixOf p

def listing (t : Tree) (p : Place) : List (Bytes × Node) :=
  let found := t.entries.filterMap fun (q, n) =>
    if p.isPrefixOf q && p.length < q.length then
      some ((Place.text (q.drop p.length)).tail, n)
    else none
  found.mergeSort fun a b => decide (a.1 ≤ b.1)

end Tree
end Disk
end Tftp
