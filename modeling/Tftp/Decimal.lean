import Tftp.Bytes

namespace Tftp

def digit (n : Nat) : UInt8 := 48 + (n % 10).toUInt8

def isDigit (b : UInt8) : Bool := 48 ≤ b && b ≤ 57

def decimal (n : Nat) : Bytes :=
  if n < 10 then [digit n] else decimal (n / 10) ++ [digit n]

def addDigit (n : UInt64) (b : UInt8) : Option UInt64 :=
  let d := b.toUInt64 - 48
  if !isDigit b || n > (0xffffffffffffffff - d) / 10 then none else some (n * 10 + d)

/-- Reads 1 to 20 digits that denote a number below 2^64. -/
def decimal? (text : Bytes) : Option UInt64 :=
  if text.isEmpty || text.length > 20 then none else text.foldlM addDigit 0

end Tftp
