import Tftp.Bytes

namespace Tftp
namespace Log

inductive Level
  | off
  | error
  | warn
  | info
  | debug
  deriving DecidableEq

def Level.rank : Level → Nat
  | .off => 0
  | .error => 1
  | .warn => 2
  | .info => 3
  | .debug => 4

structure Entry where
  level : Level
  text : Bytes
  deriving DecidableEq

structure Output where
  out : Bytes := []
  err : Bytes := []
  deriving DecidableEq

def Output.append (a b : Output) : Output := ⟨a.out ++ b.out, a.err ++ b.err⟩

instance : Append Output := ⟨Output.append⟩

def Level.admits (threshold level : Level) : Bool :=
  level ≠ .off && level.rank ≤ threshold.rank

def Level.label : Level → Bytes
  | .error => ascii "Error: "
  | .warn => ascii "Warning: "
  | .debug => ascii "Debug: "
  | _ => []

def Entry.line (e : Entry) : Bytes := e.level.label ++ e.text ++ [10]

def Entry.output (e : Entry) : Output :=
  match e.level with
  | .error | .warn => { err := e.line }
  | _ => { out := e.line }

def render (threshold : Level) (entries : List Entry) : Output :=
  entries.foldr (fun e o => if threshold.admits e.level then e.output ++ o else o) {}

@[simp] theorem render_nil (threshold : Level) : render threshold [] = {} := rfl

theorem render_cons (threshold : Level) (e : Entry) (es : List Entry) :
    render threshold (e :: es) =
      if threshold.admits e.level then e.output ++ render threshold es else render threshold es :=
  rfl

def Level.parse? (name : Bytes) : Option Level :=
  let name := Bytes.lower name
  if name = ascii "off" then some .off
  else if name = ascii "error" then some .error
  else if name = ascii "warn" ∨ name = ascii "warning" then some .warn
  else if name = ascii "info" then some .info
  else if name = ascii "debug" then some .debug
  else none

/-- The level an environment variable asks for, `info` if it is unset, empty or unknown. -/
def Level.ofEnvironment (value : Option Bytes) : Level × List Entry :=
  let value := Bytes.untilNul (value.getD [])
  if value.isEmpty then (.info, [])
  else
    match Level.parse? value with
    | some level => (level, [])
    | none =>
      (.info, [⟨.warn,
        ascii "Unknown log level '" ++ value ++ ascii "' in TFTPFF_LOG. Using info."⟩])

end Log
end Tftp
