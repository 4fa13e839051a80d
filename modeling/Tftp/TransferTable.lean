import Tftp.Slots
import Tftp.Transfer

namespace Tftp

/-- The running transfers, at most one for each endpoint and at most `capacity` in all. -/
structure TransferTable (η : Type) where
  capacity : Nat := 1024
  entries : List (Endpoint × Transfer η) := []
  slots : Slots := {}

namespace TransferTable

variable {η : Type}

def find? (t : TransferTable η) (e : Endpoint) : Option (Transfer η) := t.entries.lookup e

def size (t : TransferTable η) : Nat := t.entries.length

def full (t : TransferTable η) : Bool := t.capacity ≤ t.size

def insert? (t : TransferTable η) (x : Transfer η) : Option (TransferTable η) :=
  if t.full || (t.find? x.peer).isSome then none
  else some { t with entries := t.entries ++ [(x.peer, x)], slots := t.slots.insert x.peer }

def replace (t : TransferTable η) (e : Endpoint) (x : Transfer η) : TransferTable η :=
  { t with entries := t.entries.map fun (f, y) => if f = e then (f, x) else (f, y) }

def erase (t : TransferTable η) (e : Endpoint) : TransferTable η :=
  { t with entries := t.entries.filter fun (f, _) => f ≠ e, slots := t.slots.erase e }

def clear (t : TransferTable η) : TransferTable η := { t with entries := [], slots := t.slots.clear }

def listing (t : TransferTable η) : List (Endpoint × Transfer η) :=
  t.entries.mergeSort fun a b => t.slots.rank a.1 ≤ t.slots.rank b.1

theorem listing_perm (t : TransferTable η) : t.listing.Perm t.entries := List.mergeSort_perm _ _

end TransferTable
end Tftp
