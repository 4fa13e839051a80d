import Tftp.Packet.Basic

namespace Tftp
namespace OptionField

def toFields : List OptionField → List Bytes
  | [] => []
  | o :: os => o.name :: o.value :: toFields os

def ofFields? : List Bytes → Option (List OptionField)
  | [] => some []
  | [_] => none
  | name :: value :: fs => (ofFields? fs).map (⟨name, value⟩ :: ·)

@[simp] theorem ofFields?_toFields (os : List OptionField) : ofFields? (toFields os) = some os := by
  induction os with
  | nil => rfl
  | cons o os ih => simp [toFields, ofFields?, ih]

def bytes (os : List OptionField) : Bytes := (toFields os).flatMap Bytes.field

end OptionField

def Direction.opcode : Direction → UInt16
  | .read => 1
  | .write => 2

namespace Packet

def opcode : Packet → UInt16
  | .request d _ => d.opcode
  | .data .. => 3
  | .ack _ => 4
  | .error .. => 5
  | .optionAck _ => 6

def body : Packet → Bytes
  | .request _ r => Bytes.field r.filename ++ (Bytes.field r.mode ++ OptionField.bytes r.options)
  | .data block payload => Bytes.ofWord block ++ payload
  | .ack block => Bytes.ofWord block
  | .error code message => Bytes.ofWord code.number ++ Bytes.field message
  | .optionAck options => OptionField.bytes options

def bytes (p : Packet) : Bytes := Bytes.ofWord p.opcode ++ p.body

inductive EncodeError
  | payloadTooLong
  deriving DecidableEq

def EncodeError.message : EncodeError → Bytes
  | .payloadTooLong => ascii "Data size exceeds maximum allowed"

def encode (p : Packet) : Except EncodeError Bytes :=
  match p with
  | .data _ payload => if payload.length > maxBlockSize then .error .payloadTooLong else .ok p.bytes
  | _ => .ok p.bytes

inductive DecodeError
  | malformed
  | unsupportedMode
  deriving DecidableEq

def DecodeError.name : DecodeError → Bytes
  | .malformed => ascii "malformed packet"
  | .unsupportedMode => ascii "unsupported transfer mode"

/-- The opcode at the head of a datagram, 0 if it is too short to have one. -/
def opcodeOf : Bytes → UInt16
  | hi :: lo :: _ => Bytes.word hi lo
  | _ => 0

def decodeRequest (d : Direction) (text : Bytes) : Except DecodeError Packet :=
  match Bytes.fields? text with
  | some (filename :: mode :: rest) =>
    match OptionField.ofFields? rest with
    | none => .error .malformed
    | some options =>
      if filename.isEmpty || mode.isEmpty then .error .malformed
      else if !Bytes.sameName mode octetMode then .error .unsupportedMode
      else .ok (.request d ⟨filename, mode, options⟩)
  | _ => .error .malformed

def decodeData : Bytes → Except DecodeError Packet
  | hi :: lo :: payload =>
    if payload.length > maxBlockSize then .error .malformed
    else .ok (.data (Bytes.word hi lo) payload)
  | _ => .error .malformed

def decodeAck : Bytes → Except DecodeError Packet
  | [hi, lo] => .ok (.ack (Bytes.word hi lo))
  | _ => .error .malformed

def decodeError : Bytes → Except DecodeError Packet
  | hi :: lo :: text =>
    match Bytes.cutField? text with
    | some (message, _) => .ok (.error ⟨Bytes.word hi lo⟩ message)
    | none => .error .malformed
  | _ => .error .malformed

def decodeOptionAck (text : Bytes) : Except DecodeError Packet :=
  match (Bytes.fields? text).bind OptionField.ofFields? with
  | some options => .ok (.optionAck options)
  | none => .error .malformed

def decode : Bytes → Except DecodeError Packet
  | hi :: lo :: text =>
    match (Bytes.word hi lo).toNat with
    | 1 => decodeRequest .read text
    | 2 => decodeRequest .write text
    | 3 => decodeData text
    | 4 => decodeAck text
    | 5 => decodeError text
    | 6 => decodeOptionAck text
    | _ => .error .malformed
  | _ => .error .malformed

end Packet
end Tftp
