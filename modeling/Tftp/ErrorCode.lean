import Tftp.Bytes

namespace Tftp

/-- The number an ERROR packet carries. Any word may arrive; nine of them have a meaning. -/
structure ErrorCode where
  number : UInt16
  deriving DecidableEq

namespace ErrorCode

def notDefined : ErrorCode := ⟨0⟩
def fileNotFound : ErrorCode := ⟨1⟩
def accessViolation : ErrorCode := ⟨2⟩
def diskFull : ErrorCode := ⟨3⟩
def illegalOperation : ErrorCode := ⟨4⟩
def unknownTransferId : ErrorCode := ⟨5⟩
def fileAlreadyExists : ErrorCode := ⟨6⟩
def noSuchUser : ErrorCode := ⟨7⟩
def optionRefused : ErrorCode := ⟨8⟩

def name (c : ErrorCode) : Bytes :=
  if c = notDefined then ascii "not defined"
  else if c = fileNotFound then ascii "file not found"
  else if c = accessViolation then ascii "access violation"
  else if c = diskFull then ascii "disk full"
  else if c = illegalOperation then ascii "illegal operation"
  else if c = unknownTransferId then ascii "unknown transfer id"
  else if c = fileAlreadyExists then ascii "file already exists"
  else if c = noSuchUser then ascii "no such user"
  else if c = optionRefused then ascii "option refused"
  else ascii "unknown"

end ErrorCode
end Tftp
