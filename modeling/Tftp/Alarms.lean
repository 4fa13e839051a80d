import Tftp.Endpoint

namespace Tftp

/-- Nanoseconds on the clock of the caller. A sum that passes the last time goes on from the
first. -/
abbrev Time := Int64

def Time.seconds (n : Int64) : Time := n * 1000000000

structure Alarm where
  number : Nat
  time : Time
  peer : Endpoint
  deriving DecidableEq

/-- At most one alarm for each endpoint. The queue holds the alarms as they go off, by time, and as
they were set where times are equal; the index says which of them is the alarm of an endpoint. -/
structure Alarms where
  queue : List Alarm := []
  index : List (Endpoint × Nat) := []
  issued : Nat := 0
  deriving DecidableEq

namespace Alarms

def size (a : Alarms) : Nat := a.index.length

def armed (a : Alarms) (e : Endpoint) : Bool := (a.index.lookup e).isSome

def deadline? (a : Alarms) (e : Endpoint) : Option Time :=
  match a.index.lookup e with
  | none => none
  | some n => (a.queue.find? (·.number = n)).map (·.time)

def next? (a : Alarms) : Option Time := a.queue.head?.map (·.time)

def cancel (a : Alarms) (e : Endpoint) : Alarms :=
  match a.index.lookup e with
  | none => a
  | some n =>
    { a with
      queue := a.queue.filter (·.number ≠ n)
      index := a.index.filter (·.1 ≠ e) }

/-- Puts an alarm behind every one that is not later. -/
def enqueue (x : Alarm) : List Alarm → List Alarm
  | [] => [x]
  | y :: q => if y.time ≤ x.time then y :: enqueue x q else x :: y :: q

def arm (a : Alarms) (e : Endpoint) (t : Time) : Alarms :=
  let a := a.cancel e
  { queue := enqueue ⟨a.issued, t, e⟩ a.queue
    index := (e, a.issued) :: a.index
    issued := a.issued + 1 }

def takeDue (now : Time) :
    List Alarm → List (Endpoint × Nat) → List Endpoint × List Alarm × List (Endpoint × Nat)
  | [], index => ([], [], index)
  | x :: q, index =>
    if x.time ≤ now then
      let (due, rest) := takeDue now q (index.filter (·.1 ≠ x.peer))
      (x.peer :: due, rest)
    else ([], x :: q, index)

def expire (a : Alarms) (now : Time) : List Endpoint × Alarms :=
  let (due, queue, index) := takeDue now a.queue a.index
  (due, { a with queue := queue, index := index })

inductive Call
  | arm (e : Endpoint) (t : Time)
  | cancel (e : Endpoint)
  | clear
  | expire (now : Time)
  deriving DecidableEq

inductive Answer
  | done
  | cancelled (found : Bool)
  | expired (endpoints : List Endpoint)
  deriving DecidableEq

def call (a : Alarms) : Call → Alarms × Answer
  | .arm e t => (a.arm e t, .done)
  | .cancel e => (a.cancel e, .cancelled (a.armed e))
  | .clear => ({}, .done)
  | .expire now => ((a.expire now).2, .expired (a.expire now).1)

def run (a : Alarms) (calls : List Call) : Alarms := calls.foldl (fun a c => (a.call c).1) a

end Alarms
end Tftp
