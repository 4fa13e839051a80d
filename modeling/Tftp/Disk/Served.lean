import Tftp.Disk.Error
import Tftp.Disk.Stream

/-!
A served directory. Names in requests lead to paths below its root, on paper and through links.
An upload goes into a hidden staging file beside its target and takes the target's name when it
is committed; one that is not committed leaves nothing behind.
-/

namespace Tftp
namespace Disk

structure Served where
  tree : Tree
  root : Place
  overwrite : Bool := true
  faults : Faults := {}
  /-- What tells staging files apart, in the order in which it is drawn. -/
  tags : Nat → Bytes
  drawn : Nat := 0

structure Upload where
  target : Bytes
  staging : Bytes
  writer : Writer
  written : Nat := 0
  committed : Bool := false
  deriving DecidableEq

inductive Handle
  | reader (reader : Reader) (size : UInt64)
  | upload (upload : Upload)
  deriving DecidableEq

namespace Handle

def size : Handle → UInt64
  | .reader _ n => n
  | .upload u => u.written.toUInt64

end Handle

namespace Served

def openAt (tree : Tree) (root : Bytes) (overwrite : Bool) (tags : Nat → Bytes) (faults : Faults) :
    Except RootError Served :=
  match tree.status root with
  | .found place .dir =>
    match Tree.canonical place with
    | .ok _ =>
      .ok { tree := tree, root := place, overwrite := overwrite, faults := faults, tags := tags }
    | .error e => .error (.unresolved root e)
  | _ => .error (.notDirectory root)

/-- Maps a name to a path strictly below the root. Slashes before the name do not count. -/
def resolve (s : Served) (name : Bytes) : Except Error Path :=
  let relative := name.dropWhile (· == slash)
  if relative.isEmpty then .error .emptyName
  else
    let p := Path.extend ⟨s.root, false⟩ (Bytes.parts slash relative)
    if !p.below s.root then .error (.escapes name)
    else
      match s.tree.weaklyCanonical p with
      | .error _ => .error (.resolvesOutside name)
      | .ok real => if real.below s.root then .ok p else .error (.resolvesOutside name)

def openRead (s : Served) (path : Bytes) : Except Error Handle :=
  match s.tree.status path with
  | .found _ (.file _ content) =>
    match s.faults.unsized? path with
    | some e => .error (.cannotStat path e)
    | none =>
      if s.faults.unopened path then .error (.cannotOpen path)
      else .ok (.reader (Reader.openAt s.tree path) content.size.toUInt64)
  | .found .. => .error (.notRegular path)
  | _ => .error (.notFound path)

def stagingName (target tag : Bytes) : Bytes :=
  join (parent target) (46 :: filename target ++ ascii ".tftpff-" ++ tag)

def refusal? (s : Served) (path : Bytes) : Option Error :=
  match s.tree.status path with
  | .found _ n =>
    if !s.overwrite then some (.alreadyExists path)
    else
      match n with
      | .file .. => none
      | _ => some (.notRegular path)
  | _ => none

def openStaging (t : Tree) (truncate : Bool) (path staging : Bytes) : Except Error Writer × Tree :=
  match Writer.openAt t truncate staging with
  | .ok (writer, t) => (.ok writer, t)
  | .error _ => (.error (.cannotCreate path), (t.remove staging).toOption.getD t)

def stage (s : Served) (truncate : Bool) (path staging : Bytes) : Except Error Writer × Tree :=
  match truncate, s.tree.status path with
  | false, .found _ (.file k content) =>
    match s.tree.copyFile k content staging with
    | .error e => (.error (.cannotStage path e), s.tree)
    | .ok tree => openStaging tree false path staging
  | _, _ => openStaging s.tree true path staging

def openWrite (s : Served) (truncate : Bool) (path : Bytes) : Except Error Handle × Served :=
  match s.refusal? path with
  | some e => (.error e, s)
  | none =>
    if !s.tree.isDirectory (parent path) then (.error (.noDirectory (parent path)), s)
    else
      let staging := stagingName path (s.tags s.drawn)
      let (writer, tree) := s.stage truncate path staging
      let upload := fun w => Handle.upload { target := path, staging := staging, writer := w }
      (writer.map upload, { s with tree := tree, drawn := s.drawn + 1 })

def openRawRead (s : Served) (path : Bytes) (size : UInt64) : Handle :=
  .reader (Reader.openAt s.tree path) size

def openRawWrite (s : Served) (target staging : Bytes) : Handle × Served :=
  match Writer.openAt s.tree true staging with
  | .error _ => (.upload { target := target, staging := staging, writer := .failing }, s)
  | .ok (writer, tree) =>
    (.upload { target := target, staging := staging, writer := writer }, { s with tree := tree })

def read (s : Served) (n : Nat) : Handle → Except Error Bytes × Handle × Served
  | .upload u => (.error .openForWriting, .upload u, s)
  | .reader r size =>
    match r.read s.tree s.faults n with
    | (some bytes, r) => (.ok bytes, .reader r size, s)
    | (none, r) => (.error .readFailed, .reader r size, s)

def write (s : Served) (bytes : Bytes) : Handle → Except Error Unit × Handle × Served
  | .reader r size => (.error .openForReading, .reader r size, s)
  | .upload u =>
    match u.writer.write s.tree bytes with
    | (.error e, w, tree) =>
      (.error (.writeFailed u.staging e), .upload { u with writer := w }, { s with tree := tree })
    | (.ok (), w, tree) =>
      (.ok (), .upload { u with writer := w, written := u.written + bytes.length },
        { s with tree := tree })

def commitUpload (s : Served) (u : Upload) : Except Error Unit × Handle × Served :=
  match u.writer.close s.tree with
  | (.error e, w, tree) =>
    (.error (.flushFailed u.staging e), .upload { u with writer := w }, { s with tree := tree })
  | (.ok (), w, tree) =>
    match tree.rename u.staging u.target with
    | .error e =>
      (.error (.renameFailed u.target e), .upload { u with writer := w }, { s with tree := tree })
    | .ok tree => (.ok (), .upload { u with writer := w, committed := true }, { s with tree := tree })

def commit (s : Served) : Handle → Except Error Unit × Handle × Served
  | .reader r size => (.ok (), .reader r size, s)
  | .upload u => if u.committed then (.ok (), .upload u, s) else s.commitUpload u

def quoted (path : Bytes) : Bytes :=
  34 :: path.flatMap (fun b => if b = 34 ∨ b = 92 then [92, b] else [b]) ++ [34]

def release (s : Served) : Handle → List Log.Entry × Served
  | .reader .. => ([], s)
  | .upload u =>
    if u.committed then ([], s)
    else
      let (_, _, tree) := u.writer.close s.tree
      match tree.remove u.staging with
      | .ok tree => ([], { s with tree := tree })
      | .error .noEntry => ([], { s with tree := tree })
      | .error e =>
        ([⟨.warn, ascii "Failed to remove staging file " ++ quoted u.staging ++ ascii ": "
          ++ e.message⟩], { s with tree := tree })

end Served
end Disk

open Disk in
instance : Storage Disk.Served Disk.Handle where
  resolve name s := ((s.resolve name).map Path.text).mapError Error.toStorageError
  openRead path s := ((s.openRead path).mapError Error.toStorageError, s)
  openWrite path s :=
    let (r, s) := s.openWrite true path
    (r.mapError Error.toStorageError, s)
  size h _ := h.size
  read n h s :=
    let (r, h, s) := s.read n h
    (r.mapError Error.toStorageError, h, s)
  write bytes h s :=
    let (r, h, s) := s.write bytes h
    (r.mapError Error.toStorageError, h, s)
  commit h s :=
    let (r, h, s) := s.commit h
    (r.mapError Error.toStorageError, h, s)
  release h s := s.release h

end Tftp
