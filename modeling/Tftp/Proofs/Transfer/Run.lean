import Tftp.Transfer

namespace Tftp

inductive Transfer.Event
  | start
  | ack (block : UInt16)
  | data (block : UInt16) (payload : Bytes)
  | error (code : ErrorCode) (message : Bytes)
  | timeout
  | illegal (reason : Bytes)

section

variable {σ η : Type}

namespace Step

@[simp] theorem after_action (s : Step σ η) (log : List Log.Entry) :
    (s.after log).action = s.action := rfl

@[simp] theorem after_transfer (s : Step σ η) (log : List Log.Entry) :
    (s.after log).transfer = s.transfer := rfl

@[simp] theorem after_store (s : Step σ η) (log : List Log.Entry) :
    (s.after log).store = s.store := rfl

end Step

end

variable {σ η : Type} [Storage σ η]

def Transfer.react (t : Transfer η) (store : σ) : Event → Step σ η
  | .start => t.start store
  | .ack block => t.onAck store block
  | .data block payload => t.onData store block payload
  | .error code message => t.onError store code message
  | .timeout => t.onTimeout store
  | .illegal reason => t.illegal store reason

namespace Step

def next (s : Step σ η) (e : Transfer.Event) : Step σ η := s.transfer.react s.store e

def run (s : Step σ η) (es : List Transfer.Event) : Step σ η := es.foldl next s

@[simp] theorem run_nil (s : Step σ η) : s.run [] = s := rfl

theorem run_cons (s : Step σ η) (e : Transfer.Event) (es : List Transfer.Event) :
    s.run (e :: es) = (s.next e).run es := rfl

theorem run_concat (s : Step σ η) (es : List Transfer.Event) (e : Transfer.Event) :
    s.run (es ++ [e]) = (s.run es).next e := by
  simp [run]

theorem run_append (s : Step σ η) (before after : List Transfer.Event) :
    s.run (before ++ after) = (s.run before).run after := by
  simp [run]

def actions (s : Step σ η) : List Transfer.Event → List Action
  | [] => []
  | e :: es => (s.next e).action :: (s.next e).actions es

theorem actions_append (s : Step σ η) (before after : List Transfer.Event) :
    s.actions (before ++ after) = s.actions before ++ (s.run before).actions after := by
  induction before generalizing s with
  | nil => rfl
  | cons e before ih => simp [actions, ih, run_cons]

end Step
end Tftp
