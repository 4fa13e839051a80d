import Tftp.Decimal
import Tftp.Disk.Tree
import Tftp.Storage

namespace Tftp
namespace Disk

inductive RootError
  | notDirectory (root : Bytes)
  | unresolved (root : Bytes) (e : Errno)
  deriving DecidableEq

def RootError.message : RootError → Bytes
  | .notDirectory root => Bytes.untilNul (ascii "Served root is not a directory: " ++ root)
  | .unresolved root e =>
    Bytes.untilNul (ascii "Cannot resolve served root " ++ root ++ ascii ": " ++ e.message)

inductive Error
  | emptyName
  | escapes (name : Bytes)
  | resolvesOutside (name : Bytes)
  | notFound (path : Bytes)
  | notRegular (path : Bytes)
  | cannotStat (path : Bytes) (e : Errno)
  | cannotOpen (path : Bytes)
  | alreadyExists (path : Bytes)
  | noDirectory (path : Bytes)
  | cannotStage (path : Bytes) (e : Errno)
  | cannotCreate (path : Bytes)
  | openForReading
  | openForWriting
  | readFailed
  | writeFailed (path : Bytes) (e : Option Errno)
  | flushFailed (path : Bytes) (e : Option Errno)
  | renameFailed (path : Bytes) (e : Errno)
  deriving DecidableEq

def codeOfNumber (n : Int) : ErrorCode := if n = 28 ∨ n = 122 then .diskFull else .notDefined

def codeOf : Option Errno → ErrorCode
  | none => .notDefined
  | some e => codeOfNumber e.number

def reason : Option Errno → Bytes
  | none => []
  | some e => ascii ": " ++ e.message

namespace Error

def code : Error → ErrorCode
  | .emptyName => .accessViolation
  | .escapes _ => .accessViolation
  | .resolvesOutside _ => .accessViolation
  | .notFound _ => .fileNotFound
  | .notRegular _ => .accessViolation
  | .cannotStat .. => .accessViolation
  | .cannotOpen _ => .accessViolation
  | .alreadyExists _ => .fileAlreadyExists
  | .noDirectory _ => .fileNotFound
  | .cannotStage .. => .accessViolation
  | .cannotCreate _ => .accessViolation
  | .openForReading => .illegalOperation
  | .openForWriting => .illegalOperation
  | .readFailed => .notDefined
  | .writeFailed _ e => codeOf e
  | .flushFailed _ e => codeOf e
  | .renameFailed .. => .notDefined

def text : Error → Bytes
  | .emptyName => ascii "Empty filename"
  | .escapes name => ascii "Filename attempts to access outside base directory: " ++ name
  | .resolvesOutside name => ascii "Filename resolves outside base directory: " ++ name
  | .notFound path => ascii "File not found: " ++ path
  | .notRegular path => ascii "Not a regular file: " ++ path
  | .cannotStat path e => ascii "Cannot stat " ++ path ++ ascii ": " ++ e.message
  | .cannotOpen path => ascii "Cannot open file: " ++ path
  | .alreadyExists path => ascii "File already exists: " ++ path
  | .noDirectory path => ascii "Directory not found: " ++ path
  | .cannotStage path e => ascii "Cannot stage " ++ path ++ ascii ": " ++ e.message
  | .cannotCreate path => ascii "Cannot create or open file for writing: " ++ path
  | .openForReading => ascii "File is open for reading"
  | .openForWriting => ascii "File is open for writing"
  | .readFailed => ascii "Read error"
  | .writeFailed path e => ascii "Write to " ++ path ++ ascii " failed" ++ reason e
  | .flushFailed path e => ascii "Flushing " ++ path ++ ascii " failed" ++ reason e
  | .renameFailed path e =>
    ascii "Cannot move upload into place at " ++ path ++ ascii ": " ++ e.message

def toStorageError (e : Error) : StorageError := ⟨e.code, e.text⟩

end Error
end Disk
end Tftp
