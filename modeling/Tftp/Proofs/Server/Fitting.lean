import Tftp.Proofs.Server.Sound

namespace Tftp

variable {η : Type}

structure Storage.Fitting (σ : Type) [Storage σ η] (Fits : Direction → η → Prop) : Prop where
  opened {d : Direction} {name : Bytes} {file : η} {store store' : σ} :
    Server.openFile d name store = (.ok file, store') → Fits d file
  read {d : Direction} {n : Nat} {file file' : η} {store store' : σ}
      {got : Except StorageError Bytes} :
    Storage.read n file store = (got, file', store') → Fits d file → Fits d file'
  write {d : Direction} {block : Bytes} {file file' : η} {store store' : σ}
      {done : Except StorageError Unit} :
    Storage.write block file store = (done, file', store') → Fits d file → Fits d file'

structure Transfer.Lasting (σ : Type) [Storage σ η] (P : Transfer η → Prop) : Prop where
  new {d : Direction} {name : Bytes} {file : η} {store store' : σ} (peer : Endpoint)
      (options : List OptionField) (limits : Limits) :
    Server.openFile d name store = (.ok file, store') →
      P (.new peer d name file (negotiate options).1 limits)
  react {t : Transfer η} (store : σ) (event : Event) : P t → P (t.react store event).transfer

structure Transfer.LastingIn {σ : Type} [Storage σ η] (ready : σ → Prop) (P : Transfer η → Prop) :
    Prop where
  new {d : Direction} {name : Bytes} {file : η} {store store' : σ} (peer : Endpoint)
      (options : List OptionField) (limits : Limits) :
    Server.openFile d name store = (.ok file, store') → ready store →
      P (.new peer d name file (negotiate options).1 limits)
  react {t : Transfer η} (store : σ) (event : Event) : P t → P (t.react store event).transfer

theorem Transfer.Lasting.always {σ : Type} [Storage σ η] {P : Transfer η → Prop}
    (k : Transfer.Lasting σ P) : Transfer.LastingIn (fun _ : σ => True) P where
  new peer options limits ho _ := k.new peer options limits ho
  react := k.react

namespace Transfer

def Fitted (Fits : Direction → η → Prop) (t : Transfer η) : Prop :=
  ∀ file ∈ t.phase.file?, Fits t.direction file

section

variable {σ : Type} [Storage σ η] {Fits : Direction → η → Prop} (k : Storage.Fitting σ Fits)
  {t : Transfer η} {file : η}

include k

theorem fitted_sendNextBlock (h : Fits t.direction file) (store : σ) :
    (t.sendNextBlock file store).transfer.Fitted Fits := by
  unfold sendNextBlock
  split
  · nofun
  · rename_i hr
    intro f hf
    cases hf
    exact k.read hr h

omit k in
theorem fitted_illegal (h : t.Fitted Fits) (store : σ) (reason : Bytes) :
    (t.illegal store reason).transfer.Fitted Fits := by
  unfold illegal
  split
  · exact h
  · nofun

theorem fitted_start (h : t.Fitted Fits) (store : σ) : (t.start store).transfer.Fitted Fits := by
  unfold start
  split
  · rename_i file hp
    have hfile : Fits t.direction file := h file (by rw [hp]; rfl)
    have hfirst : ∀ u : Transfer η, u.phase = .transferring file → u.direction = t.direction →
        (u.firstReply file store).transfer.Fitted Fits := by
      intro u hu hd
      have hkept : u.Fitted Fits := by
        intro f hf
        rw [hu] at hf
        cases hf
        rwa [hd]
      unfold firstReply
      split
      · split
        · exact fitted_sendNextBlock k (hd ▸ hfile) store
        · exact hkept
      · exact hkept
    dsimp only
    split <;> exact hfirst _ rfl rfl
  · exact h

theorem fitted_onAck (h : t.Fitted Fits) (store : σ) (block : UInt16) :
    (t.onAck store block).transfer.Fitted Fits := by
  unfold onAck
  split
  · rename_i file hp
    split
    · exact fitted_illegal h store _
    · split
      · exact h
      · split
        · nofun
        · have hfile : Fits t.direction file := h file (by rw [hp]; rfl)
          exact fitted_sendNextBlock (t := { t with retries := 0 }) k hfile store
  · exact h

omit k in
theorem fitted_acknowledge (h : t.Fitted Fits) (file : η) (store : σ) (size : Nat) :
    (t.acknowledge file store size).transfer.Fitted Fits := by
  unfold acknowledge
  dsimp only
  split
  · split <;> nofun
  · exact h

theorem fitted_onData (h : t.Fitted Fits) (store : σ) (block : UInt16) (payload : Bytes) :
    (t.onData store block payload).transfer.Fitted Fits := by
  unfold onData
  split
  · rename_i file hp
    split
    · exact fitted_illegal h store _
    · split
      · exact h
      · split
        · exact fitted_illegal h store _
        · split
          · nofun
          · rename_i hw
            refine fitted_acknowledge ?_ _ _ _
            intro f hf
            cases hf
            exact k.write hw (h file (by rw [hp]; rfl))
  · exact h

omit k in
theorem fitted_onError (h : t.Fitted Fits) (store : σ) (code : ErrorCode) (message : Bytes) :
    (t.onError store code message).transfer.Fitted Fits := by
  unfold onError
  split
  · exact h
  · nofun

omit k in
theorem fitted_onTimeout (h : t.Fitted Fits) (store : σ) :
    (t.onTimeout store).transfer.Fitted Fits := by
  unfold onTimeout
  split
  · split
    · nofun
    · exact h
  · exact h

theorem lasting_fitted : Lasting σ (Fitted Fits) where
  new peer options limits ho := by
    intro f hf
    cases hf
    exact k.opened ho
  react store event h := by
    cases event with
    | start => exact fitted_start k h store
    | ack block => exact fitted_onAck k h store block
    | data block payload => exact fitted_onData k h store block payload
    | error code message => exact fitted_onError h store code message
    | timeout => exact fitted_onTimeout h store
    | illegal reason => exact fitted_illegal h store reason

end

end Transfer

namespace Server

variable {σ : Type} {P : Transfer η → Prop} {s : Server σ η} {e : Endpoint} {now : Time}

def Every (P : Transfer η → Prop) (s : Server σ η) : Prop := ∀ f ∈ s.table.entries, P f.2

theorem Every.settle (h : s.Every P) (a : Action) : (s.settle e a now).Every P := by
  unfold Server.settle
  split
  · exact fun f hf => h f (List.mem_filter.1 hf).1
  · split
    · exact h
    · split <;> exact h

theorem Every.adopt (h : s.Every P) {step : Step σ η} (hu : P step.transfer) :
    (s.adopt e step now).Every P := by
  refine Every.settle ?_ step.action
  intro f hf
  obtain ⟨g, hg, rfl⟩ := List.mem_map.1 hf
  dsimp only
  split
  · exact hu
  · exact h g hg

variable [Storage σ η]

section

variable {ready : σ → Prop} (k : Transfer.LastingIn ready P)

include k

theorem Every.openTransfer (h : s.Every P) (hr : ready s.store) (d : Direction) (r : Request) :
    (s.openTransfer e d r now).server.Every P := by
  unfold Server.openTransfer
  split
  · exact h
  · split
    · exact h
    · rename_i file store ho
      have hstart := k.react store .start (k.new e r.options s.limits ho hr)
      dsimp only
      split
      · split
        · rename_i table hi
          intro f hf
          unfold TransferTable.insert? at hi
          split at hi
          · cases hi
          · cases hi
            rcases List.mem_append.1 hf with hf | hf
            · exact h f hf
            · rw [List.mem_singleton.1 hf]
              exact hstart
        · exact h
      · exact h

theorem Every.route (h : s.Every P) (hr : ready s.store) (p : Packet) :
    (s.route e p now).server.Every P := by
  unfold Server.route
  split
  · exact h
  · rename_i p _ _ t hf hp
    have ht : P t := h _ (TransferTable.mem_of_find? hf)
    obtain ⟨event, hevent⟩ := dispatch_eq_react (σ := σ) (η := η) hp
    rw [hevent]
    exact h.adopt (k.react s.store event ht)
  · exact h.openTransfer k hr _ _
  · exact h

theorem Every.retryIn (h : s.Every P) (link : Link) : (s.retry link now e).1.Every P := by
  unfold Server.retry
  split
  · exact h
  · rename_i t hf
    exact h.adopt (k.react s.store .timeout (h _ (TransferTable.mem_of_find? hf)))

theorem Every.retryAll (h : s.Every P) (link : Link) (due : List Endpoint) :
    (s.retryAll link now due).1.Every P := by
  induction due generalizing s with
  | nil => exact h
  | cons e due ih => exact ih (h.retryIn k link)

theorem Every.stepIn (h : s.Every P) (hr : ready s.store) (event : Event) :
    (s.step event).1.Every P := by
  cases event with
  | datagram link peer bytes now =>
    change (s.receive link peer bytes now).1.Every P
    unfold receive
    split
    · exact h
    · exact h.route k hr _
  | packet peer p now => exact h.route k hr p
  | expiry link now =>
    exact Every.retryAll (s := { s with timers := (s.timers.expire now).2 }) k h link _
  | shutdown => nofun

end

variable (k : Transfer.Lasting σ P)

include k

theorem Every.retry (h : s.Every P) (link : Link) : (s.retry link now e).1.Every P :=
  h.retryIn k.always link

theorem Every.step (h : s.Every P) (event : Event) : (s.step event).1.Every P :=
  h.stepIn k.always trivial event

theorem Every.run (h : s.Every P) (events : List Event) : (s.run events).1.Every P := by
  induction events generalizing s with
  | nil => exact h
  | cons event events ih => exact ih (h.step k event)

end Server
end Tftp
