import Tftp.Decimal

namespace Tftp

structure Endpoint where
  address : UInt32
  port : UInt16
  deriving DecidableEq

namespace Endpoint

def octets (e : Endpoint) : List UInt8 :=
  [(e.address / 16777216).toUInt8, (e.address / 65536).toUInt8, (e.address / 256).toUInt8,
    e.address.toUInt8]

def ofOctets (a b c d : UInt8) (port : UInt16) : Endpoint :=
  ⟨a.toUInt32 * 16777216 + b.toUInt32 * 65536 + c.toUInt32 * 256 + d.toUInt32, port⟩

def wire (e : Endpoint) : Bytes := e.octets ++ Bytes.ofWord e.port

def dotted : List UInt8 → Bytes
  | [] => []
  | [a] => decimal a.toNat
  | a :: as => decimal a.toNat ++ 46 :: dotted as

def text (e : Endpoint) : Bytes := dotted e.octets ++ 58 :: decimal e.port.toNat

def octet? (text : Bytes) : Option UInt8 :=
  match decimal? text with
  | some n => if n ≤ 255 ∧ decimal n.toNat = text then some n.toUInt8 else none
  | none => none

/-- Reads a dotted address; a text ends at its first NUL. -/
def parse? (address : Bytes) (port : UInt16) : Option Endpoint :=
  match Bytes.parts 46 (Bytes.untilNul address) with
  | [a, b, c, d] => do
    let a ← octet? a
    let b ← octet? b
    let c ← octet? c
    let d ← octet? d
    return ofOctets a b c d port
  | _ => none

end Endpoint
end Tftp
