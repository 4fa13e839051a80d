import Tftp.Disk.Lookup

namespace Tftp
namespace Disk

inductive Sink
  | file (serial : Nat)
  | device (d : Device)
  | closed
  deriving DecidableEq

namespace Tree

def create (t : Tree) (truncate : Bool) (text : Bytes) : Except Errno (Sink × Tree) :=
  match t.find true text with
  | .error e => .error e
  | .ok p =>
    match t.node? p with
    | none => .ok (.file t.serial, t.addFile p)
    | some (.file k _) => .ok (.file k, if truncate then t.setContent k #[] else t)
    | some (.device d) => .ok (.device d, t)
    | some .dir => .error .isDirectory
    | some (.link _) => .error .loop

def writeFile (t : Tree) (text : Bytes) (content : Content) : Except Errno Tree :=
  match t.create true text with
  | .error e => .error e
  | .ok (.file k, t) => .ok (t.setContent k content)
  | .ok (_, t) => .ok t

def copyFile (t : Tree) (serial : Nat) (content : Content) (text : Bytes) : Except Errno Tree :=
  match t.status text with
  | .unknown e => .error e
  | .found _ (.file k _) => if k = serial then .error .exists else t.writeFile text content
  | .found .. => .error .notSupported
  | .missing => t.writeFile text content

def removeChild (t : Tree) (p : Place) (trailing : Bool) : Except Errno Tree :=
  match t.node? p with
  | none => .error .noEntry
  | some .dir => if t.hasChildren p then .error .notEmpty else .ok (t.erase p)
  | some _ => if trailing then .error .notDirectory else .ok (t.erase p)

/-- Removes an entry, not what a link leads to. Only an empty directory can be removed. -/
def remove (t : Tree) (text : Bytes) : Except Errno Tree :=
  match t.findEntry text with
  | .error e => .error e
  | .ok (_, .root) => .error .busy
  | .ok (_, .here) => .error .invalid
  | .ok (_, .above) => .error .notEmpty
  | .ok (dir, .name n trailing) => (child dir n).bind fun p => t.removeChild p trailing

def obstacle? (t : Tree) (q : Place) (old new : Node) : Option Errno :=
  match old, new with
  | .dir, .dir => if t.hasChildren q then some .notEmpty else none
  | .dir, _ => some .isDirectory
  | _, .dir => some .notDirectory
  | _, _ => none

def renameEntry (t : Tree) (p q : Place) (n : Node) (trailing : Bool) : Except Errno Tree :=
  if trailing && n ≠ .dir then .error .notDirectory
  else if p = q then .ok t
  else if p.isPrefixOf q then .error .invalid
  else if q.isPrefixOf p then .error .notEmpty
  else
    match (t.node? q).bind fun old => t.obstacle? q old n with
    | some e => .error e
    | none => .ok (t.move p q)

def renameChild (t : Tree) (old : Place × Name) (new : Place × Name) (trailing : Bool) :
    Except Errno Tree := do
  let p ← child old.1 old.2
  match t.node? p with
  | none => .error .noEntry
  | some n => do
    let q ← child new.1 new.2
    t.renameEntry p q n trailing

def rename (t : Tree) (old new : Bytes) : Except Errno Tree := do
  let (p, last) ← t.findEntry old
  let (q, newLast) ← t.findEntry new
  if t.mount? p ≠ t.mount? q then .error .otherDevice
  else
    match last, newLast with
    | .name n nTrailing, .name m mTrailing => t.renameChild (p, n) (q, m) (nTrailing || mTrailing)
    | _, _ => .error .busy

def place (t : Tree) (text : Bytes) (n : Node) : Tree :=
  match t.findEntry text with
  | .ok (dir, .name name _) =>
    match child dir name with
    | .error _ => t
    | .ok p => if (t.node? p).isSome then t else t.add p n
  | _ => t

def placeLink (t : Tree) (text target : Bytes) : Tree := t.place text (.link (Bytes.untilNul target))

def makeDirsFrom (t : Tree) (dir : Bytes) : List Name → Tree
  | [] => t
  | name :: rest =>
    let text := join dir name
    (if t.isDirectory text then t else t.place text .dir).makeDirsFrom text rest

def makeDirs (t : Tree) (text : Bytes) : Tree :=
  t.makeDirsFrom (if text.head? = some slash then [slash] else [])
    ((Bytes.parts slash text).filter (!·.isEmpty))

def removeAll (t : Tree) (text : Bytes) : Tree :=
  match t.findEntry text with
  | .ok (dir, .name n _) => t.prune (dir ++ [n])
  | _ => t

end Tree
end Disk
end Tftp
