import Tftp.Disk.Tree

namespace Tftp
namespace Disk

def maxName : Nat := 255
def maxPath : Nat := 4096
def maxLinks : Nat := 40

inductive Status
  | missing
  | unknown (e : Errno)
  | found (place : Place) (node : Node)
  deriving DecidableEq

namespace Tree

/-- Walks from a place along names. Where a link is met, `again` walks on from the start of its
target. The last name may be missing; every other one has to be a directory. -/
def walkWith (t : Tree) (follow : Bool) (again : Place → List Name → Except Errno Place) :
    Place → List Name → Except Errno Place
  | p, [] => .ok p
  | p, name :: rest =>
    match t.node? p with
    | none => .error .noEntry
    | some .dir =>
      if name = [] ∨ name = here then walkWith t follow again p rest
      else if name = above then walkWith t follow again p.dropLast rest
      else if name.length > maxName then .error .nameTooLong
      else
        let q := p ++ [name]
        match t.node? q with
        | some (.link target) =>
          if rest.isEmpty && !follow then .ok q
          else
            again (if target.head? = some slash then [] else p) (Bytes.parts slash target ++ rest)
        | _ => walkWith t follow again q rest
    | some _ => .error .notDirectory

def walk (t : Tree) (follow : Bool) : Nat → Place → List Name → Except Errno Place
  | 0 => t.walkWith follow fun _ _ => .error .loop
  | links + 1 => t.walkWith follow (t.walk follow links)

def origin (t : Tree) (text : Bytes) : Place := if text.head? = some slash then [] else t.cwd

def find (t : Tree) (follow : Bool) (text : Bytes) : Except Errno Place :=
  let text := Bytes.untilNul text
  if text.isEmpty then .error .noEntry
  else if text.length ≥ maxPath then .error .nameTooLong
  else t.walk follow maxLinks (t.origin text) (Bytes.parts slash text)

def status (t : Tree) (text : Bytes) : Status :=
  match t.find true text with
  | .ok p =>
    match t.node? p with
    | some n => .found p n
    | none => .missing
  | .error .noEntry => .missing
  | .error .notDirectory => .missing
  | .error e => .unknown e

def isDirectory (t : Tree) (text : Bytes) : Bool :=
  match t.status text with
  | .found _ .dir => true
  | _ => false

def canonical (p : Place) : Except Errno Path :=
  if p.text.length ≥ maxPath then .error .nameTooLong else .ok ⟨p, false⟩

def canonicalFrom (t : Tree) (p : Place) (done : List Name) : List Name → Except Errno Path
  | [] => canonical p
  | name :: rest =>
    match t.status (Place.text (done ++ [name])) with
    | .found q _ => t.canonicalFrom q (done ++ [name]) rest
    | .missing => (canonical p).map fun real => real.extend (name :: rest)
    | .unknown e => .error e

def weaklyCanonical (t : Tree) (p : Path) : Except Errno Path :=
  match t.status p.text with
  | .found q _ => canonical q
  | .missing => t.canonicalFrom [] [] p.elements
  | .unknown e => .error e

inductive LastName
  | root
  | here
  | above
  | name (n : Name) (trailing : Bool)
  deriving DecidableEq

def LastName.of (n : Name) (trailing : Bool) : LastName :=
  if n = Disk.here then .here else if n = Disk.above then .above else .name n trailing

def findEntry (t : Tree) (text : Bytes) : Except Errno (Place × LastName) :=
  let text := Bytes.untilNul text
  if text.isEmpty then .error .noEntry
  else if text.length ≥ maxPath then .error .nameTooLong
  else
    match (Bytes.parts slash text).reverse.dropWhile (·.isEmpty) with
    | [] => .ok ([], .root)
    | name :: before =>
      match t.walk true maxLinks (t.origin text) before.reverse with
      | .error e => .error e
      | .ok p =>
        match t.node? p with
        | none => .error .noEntry
        | some .dir => .ok (p, .of name (text.getLast? == some slash))
        | some _ => .error .notDirectory

def child (p : Place) (name : Name) : Except Errno Place :=
  if name.length > maxName then .error .nameTooLong else .ok (p ++ [name])

end Tree
end Disk
end Tftp
