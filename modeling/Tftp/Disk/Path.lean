import Tftp.Bytes

/-!
Paths. A path as text is a byte string; `Path` is the normal form of an absolute one, where
`..` has taken back the name before it without asking what that name stands for.
-/

namespace Tftp
namespace Disk

abbrev Name := Bytes

abbrev Place := List Name

def slash : UInt8 := 47
def here : Name := [46]
def above : Name := [46, 46]

def Place.text : Place → Bytes
  | [] => [slash]
  | p => p.flatMap (slash :: ·)

structure Path where
  names : List Name
  /-- Whether a slash follows the last name. -/
  trailing : Bool := false
  deriving DecidableEq

namespace Path

/-- A slash at the end counts as one more name, an empty one. -/
def elements (p : Path) : List Name :=
  if p.trailing && !p.names.isEmpty then p.names ++ [[]] else p.names

def text (p : Path) : Bytes := Place.text p.elements

def descend (p : Path) (name : Name) : Path :=
  if name = [] ∨ name = here then { p with trailing := true }
  else if name = above then ⟨p.names.dropLast, true⟩
  else ⟨p.names ++ [name], false⟩

def extend (p : Path) (names : List Name) : Path := names.foldl descend p

def below (root : Place) (p : Path) : Bool :=
  root.isPrefixOf p.elements && root.length < p.elements.length

end Path

def filename (text : Bytes) : Bytes := (text.reverse.takeWhile (· != slash)).reverse

def parent (text : Bytes) : Bytes :=
  let front := text.reverse.dropWhile (· != slash)
  let dir := front.dropWhile (· == slash)
  if dir.isEmpty then front.take 1 else dir.reverse

def join (dir name : Bytes) : Bytes :=
  if dir.isEmpty || dir.getLast? == some slash then dir ++ name else dir ++ slash :: name

end Disk
end Tftp
