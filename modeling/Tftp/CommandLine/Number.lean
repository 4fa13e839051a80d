import Tftp.Decimal

namespace Tftp
namespace CommandLine

def isBlank (b : UInt8) : Bool := b = 32 || (9 ≤ b && b ≤ 13)

def number (digits : Bytes) : Nat := digits.foldl (fun n d => n * 10 + (d.toNat - 48)) 0

def cutSign : Bytes → Bool × Bytes
  | 45 :: text => (true, text)
  | 43 :: text => (false, text)
  | text => (false, text)

/-- The number a text starts with and what follows it; `none` if there are no digits, or if they
denote a number past 64 bits. -/
def leadingNumber? (text : Bytes) : Option (Nat × Bytes) :=
  let (negative, text) := cutSign (text.dropWhile isBlank)
  let digits := text.takeWhile isDigit
  let n := number digits
  if digits.isEmpty || n ≥ UInt64.size then none
  else some (if negative then (UInt64.size - n) % UInt64.size else n, text.dropWhile isDigit)

end CommandLine
end Tftp
