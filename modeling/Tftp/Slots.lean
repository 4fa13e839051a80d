import Tftp.Endpoint

/-!
Endpoints spread over slots by number. A listing keeps the endpoints of one slot together, the
latest first, and a slot that comes into use stands before all others. The number of slots grows
with the endpoints.
-/

namespace Tftp

structure Slots where
  count : Nat := 13
  listed : List Endpoint := []
  deriving DecidableEq

namespace Slots

/-- How many slots there can be: primes, each at least twice the one before. -/
def counts : List Nat :=
  [13, 29, 59, 127, 257, 541, 1109, 2357, 5087, 10273, 20753, 42043, 85229, 172933, 351061,
    712697, 1447153]

def slotOf (count : Nat) (e : Endpoint) : Nat :=
  (e.address.toNat * 65536 + e.port.toNat) % count

/-- Puts an endpoint before the others of its slot, or before all where there are none. -/
def file (count : Nat) (listed : List Endpoint) (e : Endpoint) : List Endpoint :=
  match listed.span fun f => slotOf count f ≠ slotOf count e with
  | (_, []) => e :: listed
  | (before, same) => before ++ e :: same

def grow (s : Slots) : Slots :=
  let count := (counts.find? (s.count < ·)).getD s.count
  ⟨count, s.listed.foldl (file count) []⟩

def insert (s : Slots) (e : Endpoint) : Slots :=
  let s := if s.listed.length < s.count then s else s.grow
  { s with listed := file s.count s.listed e }

def erase (s : Slots) (e : Endpoint) : Slots := { s with listed := s.listed.filter (· ≠ e) }

def clear (s : Slots) : Slots := { s with listed := [] }

def rank (s : Slots) (e : Endpoint) : Nat := s.listed.idxOf e

end Slots
end Tftp
