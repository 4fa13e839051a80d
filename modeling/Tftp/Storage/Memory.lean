import Tftp.Storage

namespace Tftp
namespace Memory

/-- A file slot. The file exists once it has content. -/
structure File where
  content : Option Bytes := none
  announced : Option UInt64 := none
  readFault : Option (Nat × ErrorCode) := none
  writeFault : Option (Nat × ErrorCode) := none
  commitFault : Option ErrorCode := none
  resolveFault : Option ErrorCode := none
  openFault : Option ErrorCode := none
  live : Nat := 0
  reads : Nat := 0
  writes : Nat := 0
  commits : Nat := 0
  written : List Bytes := []

structure Handle where
  name : Bytes
  rest : Bytes
  size : UInt64
  /-- The blocks written so far, the latest first. -/
  written : List Bytes := []

abbrev Files := List (Bytes × File)

inductive Error
  | resolveFault (code : ErrorCode)
  | openFault (code : ErrorCode)
  | readFault (code : ErrorCode)
  | writeFault (code : ErrorCode)
  | commitFault (code : ErrorCode)
  | notFound (name : Bytes)

def Error.toStorageError : Error → StorageError
  | .resolveFault c => ⟨c, ascii "resolve failed"⟩
  | .openFault c => ⟨c, ascii "open failed"⟩
  | .readFault c => ⟨c, ascii "read failed"⟩
  | .writeFault c => ⟨c, ascii "write failed"⟩
  | .commitFault c => ⟨c, ascii "commit failed"⟩
  | .notFound name => ⟨.fileNotFound, ascii "File not found: " ++ name⟩

namespace Files

def get? (files : Files) (name : Bytes) : Option File := files.lookup name

def get (files : Files) (name : Bytes) : File := (files.get? name).getD {}

def put (name : Bytes) (file : File) : Files → Files
  | [] => [(name, file)]
  | (n, f) :: files => if n = name then (name, file) :: files else (n, f) :: put name file files

def openSlot (name : Bytes) (files : Files) : Handle × Files :=
  let file := files.get name
  let rest := file.content.getD []
  let size := file.announced.getD rest.length.toUInt64
  (⟨name, rest, size, []⟩, files.put name { file with written := [], live := file.live + 1 })

def resolve (name : Bytes) (files : Files) : Except Error Bytes :=
  match (files.get name).resolveFault with
  | some c => .error (.resolveFault c)
  | none => .ok name

def openRead (name : Bytes) (files : Files) : Except Error Handle × Files :=
  let file := files.get name
  match file.openFault, file.content with
  | some c, _ => (.error (.openFault c), files)
  | none, none => (.error (.notFound name), files)
  | none, some _ => let (h, files) := files.openSlot name; (.ok h, files)

def openWrite (name : Bytes) (files : Files) : Except Error Handle × Files :=
  let file := files.get name
  match file.openFault with
  | some c => (.error (.openFault c), files)
  | none => let (h, files) := files.openSlot name; (.ok h, files)

def read (n : Nat) (h : Handle) (files : Files) : Except Error Bytes × Handle × Files :=
  let file := files.get h.name
  let files := files.put h.name { file with reads := file.reads + 1 }
  match file.readFault with
  | some (k, c) =>
    if file.reads = k then (.error (.readFault c), h, files)
    else (.ok (h.rest.take n), { h with rest := h.rest.drop n }, files)
  | none => (.ok (h.rest.take n), { h with rest := h.rest.drop n }, files)

def write (block : Bytes) (h : Handle) (files : Files) : Except Error Unit × Handle × Files :=
  let file := files.get h.name
  let counted := { file with writes := file.writes + 1 }
  let stored : Except Error Unit × Handle × Files :=
    (.ok (), { h with written := block :: h.written },
      files.put h.name { counted with written := block :: counted.written })
  match file.writeFault with
  | some (k, c) =>
    if file.writes = k then (.error (.writeFault c), h, files.put h.name counted) else stored
  | none => stored

def commit (h : Handle) (files : Files) : Except Error Unit × Handle × Files :=
  let file := files.get h.name
  match file.commitFault with
  | some c => (.error (.commitFault c), h, files)
  | none =>
    let content := h.written.reverse.flatten
    (.ok (), h, files.put h.name { file with content := some content, commits := file.commits + 1 })

def release (h : Handle) (files : Files) : Files :=
  let file := files.get h.name
  files.put h.name { file with live := file.live - 1 }

end Files

def File.writtenBytes (f : File) : Bytes := f.written.reverse.flatten

end Memory

open Memory in
instance : Storage Memory.Files Memory.Handle where
  resolve name files := (files.resolve name).mapError Error.toStorageError
  openRead name files :=
    let (r, files) := files.openRead name
    (r.mapError Error.toStorageError, files)
  openWrite name files :=
    let (r, files) := files.openWrite name
    (r.mapError Error.toStorageError, files)
  size h _ := h.size
  read n h files :=
    let (r, h, files) := files.read n h
    (r.mapError Error.toStorageError, h, files)
  write block h files :=
    let (r, h, files) := files.write block h
    (r.mapError Error.toStorageError, h, files)
  commit h files :=
    let (r, h, files) := files.commit h
    (r.mapError Error.toStorageError, h, files)
  release h files := ([], files.release h)

end Tftp
