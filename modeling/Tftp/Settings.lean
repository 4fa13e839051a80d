import Tftp.CommandLine.Number
import Tftp.CommandLine.Scan
import Tftp.Endpoint
import Tftp.Transfer

namespace Tftp

structure Settings where
  address : Bytes := ascii "0.0.0.0"
  port : UInt16 := 69
  root : Bytes := []
  user : Bytes := ascii "root"
  group : Bytes := ascii "root"
  timeout : Nat := 5
  retries : Nat := 5
  maxSessions : Nat := 1024
  overwrite : Bool := true
  deriving DecidableEq

inductive Flag
  | addr
  | port
  | dir
  | user
  | group
  | timeout
  | retries
  | maxSessions
  | noOverwrite
  | help
  deriving DecidableEq

def Flag.specs : List (CommandLine.Spec Flag) := [
  ⟨.addr, ascii "addr", some 97, true⟩,
  ⟨.port, ascii "port", some 112, true⟩,
  ⟨.dir, ascii "dir", some 100, true⟩,
  ⟨.user, ascii "user", some 117, true⟩,
  ⟨.group, ascii "group", some 103, true⟩,
  ⟨.timeout, ascii "timeout", some 116, true⟩,
  ⟨.retries, ascii "retries", some 114, true⟩,
  ⟨.maxSessions, ascii "max-sessions", some 109, true⟩,
  ⟨.noOverwrite, ascii "no-overwrite", none, false⟩,
  ⟨.help, ascii "help", some 104, false⟩]

inductive Refusal
  | badAddress (text : Bytes)
  | notANumber (what text : Bytes)
  | outOfRange (what text : Bytes) (lo hi : Nat)
  | missingValue (arg : Bytes)
  | unknownOption (arg : Bytes)
  | unexpected (arg : Bytes)
  | noRoot
  | notADirectory (root : Bytes)
  deriving DecidableEq

def Endpoint.badAddress (text : Bytes) : Bytes :=
  Bytes.untilNul (ascii "Invalid IPv4 address: " ++ text)

def Refusal.message : Refusal → Bytes
  | .badAddress text => Endpoint.badAddress text
  | .notANumber what text =>
    ascii "Invalid " ++ what ++ ascii " argument '" ++ text ++ ascii "'"
  | .outOfRange what text lo hi =>
    ascii "Invalid " ++ what ++ ascii " '" ++ text ++ ascii "' (expected " ++ decimal lo
      ++ ascii ".." ++ decimal hi ++ ascii ")"
  | .missingValue arg => ascii "Missing value for " ++ arg
  | .unknownOption arg => ascii "Unknown option " ++ arg
  | .unexpected arg => ascii "Unexpected argument " ++ arg
  | .noRoot => ascii "--dir is required"
  | .notADirectory root => ascii "Not a directory: " ++ root

inductive Verdict
  | run
  | help
  deriving DecidableEq

namespace Settings

def limits (s : Settings) : Limits := { timeout := .ofNat s.timeout, retries := s.retries }

/-- Reads a number that starts with no sign, fills the whole text and lies in a range. -/
def readNumber (what : Bytes) (lo hi : Nat) (text : Bytes) : Except Refusal Nat :=
  if text.head? = some 45 ∨ text.head? = some 43 then .error (.notANumber what text)
  else
    match CommandLine.leadingNumber? text with
    | none => .error (.notANumber what text)
    | some (n, rest) =>
      if rest.isEmpty && lo ≤ n && n ≤ hi then .ok n else .error (.outOfRange what text lo hi)

def set (s : Settings) (f : Flag) (value : Bytes) : Except Refusal Settings :=
  match f with
  | .addr =>
    match Endpoint.parse? value 0 with
    | some _ => .ok { s with address := value }
    | none => .error (.badAddress value)
  | .port => (readNumber (ascii "port") 1 65535 value).map fun n => { s with port := n.toUInt16 }
  | .dir => .ok { s with root := value }
  | .user => .ok { s with user := value }
  | .group => .ok { s with group := value }
  | .timeout => (readNumber (ascii "timeout") 1 255 value).map fun n => { s with timeout := n }
  | .retries => (readNumber (ascii "retries") 0 255 value).map fun n => { s with retries := n }
  | .maxSessions =>
    (readNumber (ascii "max-sessions") 1 1000000 value).map fun n => { s with maxSessions := n }
  | .noOverwrite => .ok { s with overwrite := false }
  | .help => .ok s

def setAll (s : Settings) : List (Flag × Bytes) → Settings × Option (Except Refusal Verdict)
  | [] => (s, none)
  | (f, value) :: rest =>
    if f = .help then (s, some (.ok .help))
    else
      match s.set f value with
      | .error e => (s, some (.error e))
      | .ok s => s.setAll rest

def check (s : Settings) (isDirectory : Bytes → Bool) : Except Refusal Verdict :=
  if s.root.isEmpty then .error .noRoot
  else if !isDirectory s.root then .error (.notADirectory s.root)
  else .ok .run

def conclude (s : Settings) (isDirectory : Bytes → Bool) :
    CommandLine.Ending → Except Refusal Verdict
  | .missingValue arg => .error (.missingValue arg)
  | .unknown arg => .error (.unknownOption arg)
  | .complete (arg :: _) => .error (.unexpected arg)
  | .complete [] => s.check isDirectory

def ofCommandLine (s : Settings) (isDirectory : Bytes → Bool) (program : Bytes)
    (args : List Bytes) : Settings × Except Refusal Verdict :=
  let scan := CommandLine.scan Flag.specs program args
  match s.setAll scan.found with
  | (s, some verdict) => (s, verdict)
  | (s, none) => (s, s.conclude isDirectory scan.ending)

end Settings

def usage (program : Bytes) : Bytes :=
  ascii "Usage: " ++ program ++ ascii (
    " --dir <root> [options]\n" ++
    "  -a, --addr <ipv4>          address to bind (default 0.0.0.0)\n" ++
    "  -p, --port <port>          UDP port (default 69)\n" ++
    "  -d, --dir <root>           directory to serve (required)\n" ++
    "  -u, --user <name>          user to switch to after binding (default root)\n" ++
    "  -g, --group <name>         group to switch to after binding (default root)\n" ++
    "  -t, --timeout <seconds>    default retransmission timeout, 1-255 (default 5)\n" ++
    "  -r, --retries <count>      retransmissions before giving up (default 5)\n" ++
    "  -m, --max-sessions <n>     concurrent transfers (default 1024)\n" ++
    "      --no-overwrite         refuse uploads onto existing files\n" ++
    "  -h, --help                 show this help\n" ++
    "Log level is read from TFTPFF_LOG (off, error, warn, info, debug).\n")

end Tftp
