import Tftp.Proofs.Disk.Opening
import Tftp.Proofs.Packet.RoundTrip
import Tftp.Proofs.Server.Consistent

namespace Tftp
namespace Disk

/-- An event that asks for no file by a name that no datagram can hold. -/
def Plain : Server.Event → Prop
  | .packet _ (.request _ r) _ => 0 ∉ r.filename
  | _ => True

theorem named_of_plain {event : Server.Event} (h : Plain event) :
    event.Named fun name => 0 ∉ name := by
  cases event with
  | datagram link peer bytes now => exact fun d r => Packet.filename_of_decode
  | packet peer p now =>
    intro d r hp
    subst hp
    exact h
  | expiry link now => trivial
  | shutdown => trivial

namespace Served

def after (s : Served) (limits : Limits) (capacity : Nat) (events : List Server.Event) :
    Server Served Handle :=
  ((Server.new s limits capacity).run events).1

abbrev treeAfter (s : Served) (limits : Limits) (capacity : Nat) (events : List Server.Event) :
    Tree :=
  (s.after limits capacity events).store.tree

end Served

def sending (port : UInt16) (p : Packet) (now : Time) : Server.Event :=
  .datagram (fun _ _ => true) (.ofOctets 10 0 0 1 port) p.bytes now

end Disk
end Tftp
