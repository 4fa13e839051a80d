import Tftp.Deadlines
import Tftp.TransferTable

/-!
The server: every transfer shares one socket, and the endpoint a datagram comes from says which
transfer it belongs to. Time, the store and the success of each sending come from outside.
-/

namespace Tftp

structure Server (σ η : Type) where
  store : σ
  limits : Limits := {}
  table : TransferTable η := {}
  timers : Deadlines := ∅

structure Effects where
  sent : List (Endpoint × Bytes) := []
  log : List Log.Entry := []

def Effects.append (a b : Effects) : Effects := ⟨a.sent ++ b.sent, a.log ++ b.log⟩

instance : Append Effects := ⟨Effects.append⟩

/-- Tells whether the socket takes a packet for a peer. -/
abbrev Link := Endpoint → Bytes → Bool

namespace Server

variable {σ η : Type}

structure Routed (σ η : Type) where
  action : Action
  server : Server σ η
  log : List Log.Entry := []

def busy : Bytes := Packet.bytes (.error .notDefined (ascii "server too busy"))

def deliver (link : Link) (peer : Endpoint) (a : Action) : Effects :=
  if a.packet.isEmpty then {}
  else
    { sent := [(peer, a.packet)]
      log := if link peer a.packet then [] else [peer.note .error (ascii "sendto failed")] }

def settle (s : Server σ η) (peer : Endpoint) (a : Action) (now : Time) : Server σ η :=
  match a with
  | .closed _ => { s with table := s.table.erase peer, timers := s.timers.cancel peer }
  | a =>
    if a.packet.isEmpty then s
    else
      match s.table.find? peer with
      | none => s
      | some t => { s with timers := s.timers.arm peer (now + .seconds t.timeout) }

def adopt (s : Server σ η) (peer : Endpoint) (step : Step σ η) (now : Time) : Server σ η :=
  { s with store := step.store, table := s.table.replace peer step.transfer }.settle
    peer step.action now

variable [Storage σ η]

def openFile (d : Direction) (name : Bytes) (store : σ) : Except StorageError η × σ :=
  match Storage.resolve name store with
  | .error e => (.error e, store)
  | .ok path =>
    match d with
    | .read => Storage.openRead path store
    | .write => Storage.openWrite path store

/-- Starts a transfer. It enters the table only once its first packet is made. -/
def openTransfer (s : Server σ η) (peer : Endpoint) (d : Direction) (r : Request) (now : Time) :
    Routed σ η :=
  if s.table.full then
    ⟨.reply busy, s, [peer.note .warn (ascii "rejecting request, " ++ decimal s.table.size
      ++ ascii " sessions active")]⟩
  else
    match openFile d r.filename s.store with
    | (.error e, store) =>
      ⟨.reply (Packet.bytes (.error e.code e.code.name)), { s with store := store },
        [peer.note .warn e.message]⟩
    | (.ok file, store) =>
      let (accepted, negotiated) := negotiate r.options
      let step := (Transfer.new peer d r.filename file accepted s.limits).start store
      let log := negotiated ++ step.log
      match step.action with
      | .opened packet =>
        match s.table.insert? step.transfer with
        | some table =>
          ⟨.opened packet,
            { s with
              store := step.store
              table := table
              timers := s.timers.arm peer (now + .seconds step.transfer.timeout) }, log⟩
        | none =>
          let (released, store) := step.transfer.discard step.store
          ⟨.reply busy, { s with store := store },
            log ++ released ++ [peer.note .error (ascii "could not store new session")]⟩
      | a => ⟨a, { s with store := step.store }, log⟩

def dispatch (t : Transfer η) (store : σ) : Packet → Step σ η
  | .ack block => t.onAck store block
  | .data block payload => t.onData store block payload
  | .error code message => t.onError store code message
  | .optionAck _ => t.illegal store (ascii "OACK received from a client")
  | .request .. => t.idle store

/-- Routes a decoded packet; the action says what to send. A request while a transfer runs leaves
that transfer as it was, and traffic that belongs to no transfer is never answered. -/
def route (s : Server σ η) (peer : Endpoint) (p : Packet) (now : Time) : Routed σ η :=
  match s.table.find? peer, p with
  | some _, .request .. =>
    ⟨.reply (Packet.bytes (.error .illegalOperation (ascii "illegal operation"))), s,
      [peer.note .warn (ascii "new request while a transfer is active")]⟩
  | some t, p =>
    let step := dispatch t s.store p
    ⟨step.action, s.adopt peer step now, step.log⟩
  | none, .request d r =>
    let routed := s.openTransfer peer d r now
    { routed with
      log := peer.note .info (d.requestName ++ ascii " for " ++ r.filename) :: routed.log }
  | none, p =>
    ⟨.noReply, s, [peer.note .debug (ascii "no session, dropping " ++ p.summary)]⟩

def receive (s : Server σ η) (link : Link) (peer : Endpoint) (datagram : Bytes) (now : Time) :
    Server σ η × Effects :=
  match Packet.decode datagram with
  | .error e =>
    (s, { log := [peer.note .warn (ascii "dropping " ++ decimal datagram.length
      ++ ascii "-byte datagram: " ++ e.name)] })
  | .ok p =>
    let routed := s.route peer p now
    (routed.server,
      { log := peer.note .debug (ascii "received " ++ p.summary) :: routed.log }
        ++ deliver link peer routed.action)

def retry (s : Server σ η) (link : Link) (now : Time) (peer : Endpoint) : Server σ η × Effects :=
  match s.table.find? peer with
  | none => (s, {})
  | some t =>
    let step := t.onTimeout s.store
    (s.adopt peer step now, { log := step.log } ++ deliver link peer step.action)

def retryAll (s : Server σ η) (link : Link) (now : Time) : List Endpoint → Server σ η × Effects
  | [] => (s, {})
  | peer :: peers =>
    let (s, before) := s.retry link now peer
    let (s, after) := s.retryAll link now peers
    (s, before ++ after)

/-- One retry step for every transfer whose deadline has come, the earliest first. -/
def expire (s : Server σ η) (link : Link) (now : Time) : Server σ η × Effects :=
  let (peers, timers) := s.timers.expire now
  { s with timers := timers }.retryAll link now peers

def releaseAll : List (Endpoint × Transfer η) → σ → List Log.Entry × σ
  | [], store => ([], store)
  | (_, t) :: entries, store =>
    let (before, store) := t.discard store
    let (after, store) := releaseAll entries store
    (before ++ after, store)

/-- Abandons all transfers, slot by slot, without a word to their peers. -/
def shutdown (s : Server σ η) : Server σ η × Effects :=
  let (released, store) := releaseAll s.table.listing s.store
  let abandoned :=
    if s.table.size = 0 then []
    else [⟨.info, ascii "Abandoning " ++ decimal s.table.size ++ ascii " active session(s)."⟩]
  ({ s with store := store, table := s.table.clear, timers := ∅ }, { log := abandoned ++ released })

inductive Event
  | datagram (link : Link) (peer : Endpoint) (bytes : Bytes) (now : Time)
  | packet (peer : Endpoint) (packet : Packet) (now : Time)
  | expiry (link : Link) (now : Time)
  | shutdown

def step (s : Server σ η) : Event → Server σ η × Effects
  | .datagram link peer bytes now => s.receive link peer bytes now
  | .packet peer p now => let routed := s.route peer p now; (routed.server, { log := routed.log })
  | .expiry link now => s.expire link now
  | .shutdown => s.shutdown

def run (s : Server σ η) : List Event → Server σ η × Effects
  | [] => (s, {})
  | e :: es =>
    let (s, before) := s.step e
    let (s, after) := s.run es
    (s, before ++ after)

end Server
end Tftp
