import Tftp.Decimal
import Tftp.Log
import Tftp.Packet.Basic

/-!
Option negotiation: of the options in a request, the known ones with a value in range are
accepted, the first such value of each kind, in the order of the request.
-/

namespace Tftp

inductive OptionKind
  | blockSize
  | timeout
  | transferSize
  deriving DecidableEq

namespace OptionKind

def name : OptionKind → Bytes
  | .blockSize => ascii "blksize"
  | .timeout => ascii "timeout"
  | .transferSize => ascii "tsize"

def ofName? (name : Bytes) : Option OptionKind :=
  [blockSize, timeout, transferSize].find? fun k => Bytes.sameName name k.name

end OptionKind

inductive Choice
  | blockSize (bytes : Nat)
  | timeout (seconds : UInt32)
  | transferSize (bytes : UInt64)
  deriving DecidableEq

namespace Choice

def kind : Choice → OptionKind
  | .blockSize _ => .blockSize
  | .timeout _ => .timeout
  | .transferSize _ => .transferSize

def value : Choice → Bytes
  | .blockSize n => decimal n
  | .timeout n => decimal n.toNat
  | .transferSize n => decimal n.toNat

def field (c : Choice) : OptionField := ⟨c.kind.name, c.value⟩

def ofValue? (k : OptionKind) (value : Bytes) : Option Choice :=
  match decimal? value with
  | none => none
  | some n =>
    match k with
    | .blockSize =>
      if minBlockSize ≤ n.toNat ∧ n.toNat ≤ maxBlockSize then some (.blockSize n.toNat) else none
    | .timeout => if 1 ≤ n ∧ n ≤ 255 then some (.timeout n.toUInt32) else none
    | .transferSize => some (.transferSize n)

end Choice

structure Accepted where
  choices : List Choice := []
  deriving DecidableEq

namespace Accepted

def has (a : Accepted) (k : OptionKind) : Bool := a.choices.any fun c => c.kind = k

def set (a : Accepted) (c : Choice) : Accepted :=
  if a.has c.kind then ⟨a.choices.map fun d => if d.kind = c.kind then c else d⟩
  else ⟨a.choices ++ [c]⟩

def blockSize? (a : Accepted) : Option Nat :=
  a.choices.findSome? fun | .blockSize n => some n | _ => none

def timeout? (a : Accepted) : Option UInt32 :=
  a.choices.findSome? fun | .timeout n => some n | _ => none

def transferSize? (a : Accepted) : Option UInt64 :=
  a.choices.findSome? fun | .transferSize n => some n | _ => none

def fields (a : Accepted) : List OptionField := a.choices.map Choice.field

def offer (a : Accepted) (o : OptionField) : Accepted × List Log.Entry :=
  let refused (reason : Bytes) : Accepted × List Log.Entry :=
    (a, [⟨.debug, reason ++ o.name ++ 61 :: o.value⟩])
  match OptionKind.ofName? o.name with
  | none => refused (ascii "Ignoring unknown option ")
  | some k =>
    if a.has k then (a, [])
    else
      match Choice.ofValue? k o.value with
      | none => refused (ascii "Ignoring out-of-range option ")
      | some c => (a.set c, [])

def offerAll (a : Accepted) : List OptionField → Accepted × List Log.Entry
  | [] => (a, [])
  | o :: os =>
    let (a, before) := a.offer o
    let (a, after) := a.offerAll os
    (a, before ++ after)

end Accepted

def negotiate (requested : List OptionField) : Accepted × List Log.Entry :=
  Accepted.offerAll {} requested

end Tftp
