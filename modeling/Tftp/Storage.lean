import Tftp.ErrorCode
import Tftp.Log

/-!
What the server needs of the place its files live in. A store `σ` is threaded through every
operation; an open file `η` belongs to one transfer.
-/

namespace Tftp

structure StorageError where
  code : ErrorCode
  text : Bytes
  deriving DecidableEq

def StorageError.message (e : StorageError) : Bytes := Bytes.untilNul e.text

class Storage (σ : Type) (η : outParam Type) where
  resolve : Bytes → σ → Except StorageError Bytes
  openRead : Bytes → σ → Except StorageError η × σ
  openWrite : Bytes → σ → Except StorageError η × σ
  size : η → σ → UInt64
  /-- Reads on, up to a number of bytes; fewer come only at the end of the file. -/
  read : Nat → η → σ → Except StorageError Bytes × η × σ
  write : Bytes → η → σ → Except StorageError Unit × η × σ
  commit : η → σ → Except StorageError Unit × η × σ
  release : η → σ → List Log.Entry × σ

end Tftp
