import Tftp.Decimal
import Tftp.Packet.Basic

namespace Tftp

def OptionField.summary (o : OptionField) : Bytes := 32 :: o.name ++ 61 :: o.value

def Direction.requestName : Direction → Bytes
  | .read => ascii "RRQ"
  | .write => ascii "WRQ"

def Packet.summary : Packet → Bytes
  | .request d r =>
    d.requestName ++ ascii "(\"" ++ r.filename ++ ascii "\", " ++ r.mode
      ++ r.options.flatMap OptionField.summary ++ ascii ")"
  | .data block payload =>
    ascii "DATA(block=" ++ decimal block.toNat ++ ascii ", " ++ decimal payload.length
      ++ ascii " bytes)"
  | .ack block => ascii "ACK(block=" ++ decimal block.toNat ++ ascii ")"
  | .error code message =>
    ascii "ERROR(code=" ++ decimal code.number.toNat ++ ascii ", \"" ++ message ++ ascii "\")"
  | .optionAck options =>
    ascii "OACK(" ++ options.flatMap OptionField.summary ++ ascii " )"

end Tftp
