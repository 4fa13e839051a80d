import Tftp.Proofs.Transfer.Image
import Tftp.Server

namespace Tftp

variable {σ η τ θ : Type} {f : η → θ} {g : σ → τ}

namespace TransferTable

@[simps] def map (f : η → θ) (t : TransferTable η) : TransferTable θ :=
  { t with entries := t.entries.map (.map id (·.map f)) }

@[simp] theorem size_map (t : TransferTable η) : (t.map f).size = t.size := List.length_map _

@[simp] theorem full_map (t : TransferTable η) : (t.map f).full = t.full := by simp [full]

@[simp] theorem find?_map (t : TransferTable η) (e : Endpoint) :
    (t.map f).find? e = (t.find? e).map (·.map f) := by
  unfold find?
  rw [map_entries]
  induction t.entries with
  | nil => rfl
  | cons x entries ih =>
    obtain ⟨k, y⟩ := x
    simp only [List.map_cons, Prod.map_apply, id_eq, List.lookup_cons, ih]
    split <;> rfl

theorem insert?_map (t : TransferTable η) (x : Transfer η) :
    (t.map f).insert? (x.map f) = (t.insert? x).map (·.map f) := by
  unfold insert?
  simp only [full_map, find?_map, Transfer.map_peer, Option.isSome_map]
  split
  · rfl
  · simp [map]

theorem replace_map (t : TransferTable η) (e : Endpoint) (x : Transfer η) :
    (t.map f).replace e (x.map f) = (t.replace e x).map f := by
  simp only [replace, map, List.map_map]
  congr 2
  funext y
  by_cases h : y.1 = e <;> simp [h]

theorem erase_map (t : TransferTable η) (e : Endpoint) :
    (t.map f).erase e = (t.erase e).map f := by
  simp [erase, map, List.filter_map, Function.comp_def]

theorem listing_map (t : TransferTable η) :
    (t.map f).listing = t.listing.map (.map id (·.map f)) := by
  unfold listing
  exact (List.map_mergeSort (f := Prod.map id (Transfer.map f)) fun _ _ _ _ => rfl).symm

end TransferTable

namespace Server

@[simps] def map (f : η → θ) (g : σ → τ) (s : Server σ η) : Server τ θ :=
  { s with store := g s.store, table := s.table.map f }

@[simps] def Routed.map (f : η → θ) (g : σ → τ) (r : Routed σ η) : Routed τ θ :=
  { r with server := r.server.map f g }

variable {s : Server σ η} {e : Endpoint} {now : Time}

theorem settle_map (a : Action) :
    (s.map f g).settle e a now = (s.settle e a now).map f g := by
  unfold settle
  simp only [map_table, TransferTable.erase_map, TransferTable.find?_map]
  cases a with
  | closed packet => rfl
  | noReply => rfl
  | reply packet | opened packet =>
    dsimp only
    split
    · rfl
    · cases s.table.find? e <;> rfl

theorem adopt_map (step : Step σ η) :
    (s.map f g).adopt e (step.map f g) now = (s.adopt e step now).map f g := by
  unfold adopt
  rw [Step.map_transfer, map_table, TransferTable.replace_map]
  exact settle_map (s := { s with
    store := step.store, table := s.table.replace e step.transfer }) _

variable [Storage σ η] [Storage τ θ]

theorem openFile_map (h : Storage.Image f g) (d : Direction) (name : Bytes) (store : σ) :
    openFile d name (g store) = (openFile d name store).map (·.map f) g := by
  unfold openFile
  rw [h.resolve]
  cases Storage.resolve name store with
  | error e => rfl
  | ok path =>
    cases d with
    | read => exact h.openRead path store
    | write => exact h.openWrite path store

theorem discard_map (h : Storage.Image f g) (t : Transfer η) (store : σ) :
    (t.map f).discard (g store) = (t.discard store).map id g := by
  unfold Transfer.discard
  rw [Transfer.map_phase, Phase.file?_map]
  cases t.phase.file? with
  | none => rfl
  | some file => exact h.release file store

theorem openTransfer_map (h : Storage.Image f g) (d : Direction) (r : Request) :
    (s.map f g).openTransfer e d r now = (s.openTransfer e d r now).map f g := by
  unfold openTransfer
  simp only [map_table, TransferTable.full_map, TransferTable.size_map, map_store, map_limits,
    openFile_map h]
  split
  · rfl
  · rcases openFile d r.filename s.store with ⟨_ | file, store⟩
    · rfl
    · have hs : (Transfer.new e d r.filename (f file) (negotiate r.options).1 s.limits).start
          (g store) = _ :=
        Transfer.start_map (t := .new e d r.filename file (negotiate r.options).1 s.limits) h
      dsimp only [Prod.map, Except.map]
      rw [hs]
      generalize (Transfer.new e d r.filename file (negotiate r.options).1 s.limits).start store = u
      rw [Step.map_action]
      cases u.action with
      | opened packet =>
        dsimp only
        rw [Step.map_transfer, Step.map_store, TransferTable.insert?_map]
        cases s.table.insert? u.transfer with
        | some table => rfl
        | none =>
          rw [discard_map h]
          rfl
      | noReply => rfl
      | reply packet => rfl
      | closed packet => rfl

theorem dispatch_map (h : Storage.Image f g) (t : Transfer η) (store : σ) (p : Packet) :
    dispatch (t.map f) (g store) p = (dispatch t store p).map f g := by
  cases p with
  | request d r => rfl
  | ack block => exact Transfer.onAck_map h block
  | data block payload => exact Transfer.onData_map h block payload
  | error code message => exact Transfer.onError_map h code message
  | optionAck options => exact Transfer.illegal_map h _

theorem route_map (h : Storage.Image f g) (p : Packet) :
    (s.map f g).route e p now = (s.route e p now).map f g := by
  unfold route
  rw [map_table, TransferTable.find?_map]
  cases s.table.find? e with
  | none =>
    cases p with
    | request d r =>
      dsimp only [Option.map]
      rw [openTransfer_map h]
      rfl
    | ack | data | error | optionAck => rfl
  | some t =>
    cases p with
    | request d r => rfl
    | ack | data | error | optionAck =>
      dsimp only [Option.map]
      rw [map_store, dispatch_map h, adopt_map]
      rfl

theorem receive_map (h : Storage.Image f g) (link : Link) (datagram : Bytes) :
    (s.map f g).receive link e datagram now = (s.receive link e datagram now).map (·.map f g) id := by
  unfold receive
  cases Packet.decode datagram with
  | error cause => rfl
  | ok p =>
    dsimp only
    rw [route_map h]
    rfl

theorem retry_map (h : Storage.Image f g) (link : Link) :
    (s.map f g).retry link now e = (s.retry link now e).map (·.map f g) id := by
  unfold retry
  rw [map_table, TransferTable.find?_map]
  cases s.table.find? e with
  | none => rfl
  | some t =>
    dsimp only [Option.map]
    rw [map_store, Transfer.onTimeout_map h, adopt_map]
    rfl

theorem retryAll_map (h : Storage.Image f g) (link : Link) (due : List Endpoint) :
    (s.map f g).retryAll link now due = (s.retryAll link now due).map (·.map f g) id := by
  induction due generalizing s with
  | nil => rfl
  | cons e due ih =>
    unfold retryAll
    rw [retry_map h]
    dsimp only [Prod.map, id_eq]
    rw [ih]
    rfl

theorem expire_map (h : Storage.Image f g) (link : Link) :
    (s.map f g).expire link now = (s.expire link now).map (·.map f g) id :=
  retryAll_map (s := { s with timers := (s.timers.expire now).2 }) h link _

theorem releaseAll_map (h : Storage.Image f g) (entries : List (Endpoint × Transfer η))
    (store : σ) :
    releaseAll (entries.map (.map id (·.map f))) (g store) =
      (releaseAll entries store).map id g := by
  induction entries generalizing store with
  | nil => rfl
  | cons x entries ih =>
    rw [List.map_cons, releaseAll, releaseAll]
    dsimp only [Prod.map]
    rw [discard_map h]
    dsimp only [Prod.map]
    rw [ih]
    rfl

theorem shutdown_map (h : Storage.Image f g) :
    (s.map f g).shutdown = s.shutdown.map (·.map f g) id := by
  unfold shutdown
  rw [map_table, map_store, TransferTable.listing_map, releaseAll_map h, TransferTable.size_map]
  rfl

theorem step_map (h : Storage.Image f g) (event : Event) :
    (s.map f g).step event = (s.step event).map (·.map f g) id := by
  cases event with
  | datagram link peer bytes now => exact receive_map h link bytes
  | packet peer p now =>
    rw [step, step, route_map h]
    rfl
  | expiry link now => exact expire_map h link
  | shutdown => exact shutdown_map h

theorem run_map (h : Storage.Image f g) (s : Server σ η) (events : List Event) :
    (s.map f g).run events = (s.run events).map (·.map f g) id := by
  induction events generalizing s with
  | nil => rfl
  | cons event events ih =>
    unfold run
    rw [step_map h]
    dsimp only [Prod.map, id_eq]
    rw [ih]
    rfl

end Server
end Tftp
