import Tftp.ErrorCode

namespace Tftp

structure OptionField where
  name : Bytes
  value : Bytes
  deriving DecidableEq

/-- Which way a transfer moves the file: `read` toward the peer, `write` toward the server. -/
inductive Direction
  | read
  | write
  deriving DecidableEq

structure Request where
  filename : Bytes
  mode : Bytes
  options : List OptionField
  deriving DecidableEq

inductive Packet
  | request (direction : Direction) (request : Request)
  | data (block : UInt16) (payload : Bytes)
  | ack (block : UInt16)
  | error (code : ErrorCode) (message : Bytes)
  | optionAck (options : List OptionField)
  deriving DecidableEq

def octetMode : Bytes := ascii "octet"

def defaultBlockSize : Nat := 512
def minBlockSize : Nat := 8
def maxBlockSize : Nat := 65464

end Tftp
