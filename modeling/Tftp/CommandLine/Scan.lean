import Tftp.Bytes

/-!
Scanning a command line: long options, which any unique beginning names, clusters of one-letter
options, values that are attached or follow, and positional arguments in between. Arguments that
were passed over stand behind the options scanned so far, in front of the rest.
-/

namespace Tftp
namespace CommandLine

structure Spec (φ : Type) where
  flag : φ
  long : Bytes
  letter : Option UInt8
  takesValue : Bool

inductive Ending
  | complete (positional : List Bytes)
  | missingValue (blamed : Bytes)
  | unknown (blamed : Bytes)
  deriving DecidableEq

structure Scan (φ : Type) where
  found : List (φ × Bytes)
  ending : Ending

variable {φ : Type}

def Scan.cons (f : φ) (value : Bytes) (s : Scan φ) : Scan φ :=
  { s with found := (f, value) :: s.found }

/-- The option a long name stands for: the one of that name, or the only one that starts so. -/
def longOption? (specs : List (Spec φ)) (name : Bytes) : Option (Spec φ) :=
  match specs.find? fun s => s.long = name with
  | some s => some s
  | none =>
    match specs.filter fun s => name.isPrefixOf s.long with
    | [s] => some s
    | _ => none

def letterOption? (specs : List (Spec φ)) (letter : UInt8) : Option (Spec φ) :=
  specs.find? fun s => s.letter = some letter

/-- How a cluster of letters ends: with an option that has its value in the cluster or wants one
from the next argument, or with a letter that is no option. -/
inductive ClusterEnd (φ : Type)
  | complete
  | value (f : φ) (value : Bytes)
  | wantsValue (f : φ)
  | unknown (isLast : Bool)

def scanCluster (specs : List (Spec φ)) : Bytes → List φ × ClusterEnd φ
  | [] => ([], .complete)
  | c :: cs =>
    match letterOption? specs c with
    | none => ([], .unknown cs.isEmpty)
    | some s =>
      if s.takesValue then ([], if cs.isEmpty then .wantsValue s.flag else .value s.flag cs)
      else
        let (flags, e) := scanCluster specs cs
        (s.flag :: flags, e)

inductive Argument
  | positional
  | separator
  | long (name : Bytes) (value : Option Bytes)
  | cluster (letters : Bytes)

def Argument.of : Bytes → Argument
  | [45, 45] => .separator
  | 45 :: 45 :: text =>
    match text.dropWhile (· != 61) with
    | [] => .long text none
    | _ :: value => .long (text.takeWhile (· != 61)) (some value)
  | 45 :: c :: cs => .cluster (c :: cs)
  | _ => .positional

def Scan.consAll (flags : List φ) (s : Scan φ) : Scan φ :=
  { s with found := flags.map (fun f => (f, [])) ++ s.found }

/-- Scans the rest of a command line behind the argument `before` and the arguments passed over.
A letter that is no option, with more letters behind it, is blamed on the argument in front. -/
def scanFrom (specs : List (Spec φ)) (before : Bytes) (passed : List Bytes) :
    List Bytes → Scan φ
  | [] => ⟨[], .complete passed⟩
  | arg :: args =>
    match Argument.of arg with
    | .positional => scanFrom specs before (passed ++ [arg]) args
    | .separator => ⟨[], .complete (passed ++ args)⟩
    | .long name value =>
      match longOption? specs name, value with
      | none, _ => ⟨[], .unknown arg⟩
      | some s, none =>
        if s.takesValue then
          match args with
          | [] => ⟨[], .missingValue arg⟩
          | value :: args => (scanFrom specs value passed args).cons s.flag value
        else (scanFrom specs arg passed args).cons s.flag []
      | some s, some value =>
        if s.takesValue then (scanFrom specs arg passed args).cons s.flag value
        else ⟨[], .unknown arg⟩
    | .cluster letters =>
      match scanCluster specs letters with
      | (flags, .complete) => (scanFrom specs arg passed args).consAll flags
      | (flags, .value f value) => ((scanFrom specs arg passed args).cons f value).consAll flags
      | (flags, .wantsValue f) =>
        match args with
        | [] => Scan.consAll flags ⟨[], .missingValue arg⟩
        | value :: args => ((scanFrom specs value passed args).cons f value).consAll flags
      | (flags, .unknown isLast) =>
        Scan.consAll flags ⟨[], .unknown (if isLast then arg else passed.getLast?.getD before)⟩

def scan (specs : List (Spec φ)) (program : Bytes) (args : List Bytes) : Scan φ :=
  scanFrom specs program [] args

end CommandLine
end Tftp
