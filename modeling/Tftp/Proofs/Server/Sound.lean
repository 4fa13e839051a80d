import Tftp.Proofs.Deadlines
import Tftp.Proofs.Storage.Kept
import Tftp.Proofs.Transfer.Frame
import Tftp.Proofs.Transfer.Outcome
import Tftp.Proofs.TransferTable

/-!
What holds of a server after every event: its transfers and its deadlines belong to the same
endpoints, every transfer is under way, and an invariant of the open files and the store is kept.
While deadlines are handled one by one, the endpoints that are still to come have a transfer and no
deadline.
-/

namespace Tftp

def TransferTable.files {η : Type} (t : TransferTable η) : List η := t.entries.flatMap (·.2.files)

namespace Server

structure Filed {η : Type} (e : Endpoint) (t : Transfer η) : Prop where
  peer : t.peer = e
  running : t.Running
  blockSize : minBlockSize ≤ t.blockSize ∧ t.blockSize ≤ maxBlockSize

/-- The invariant of a server with room for `limit` transfers, when the deadlines of the endpoints
`due` have come and are yet to be handled. -/
structure Sound {σ η : Type} (I : List η → σ → Prop) (limit : Nat) (due : List Endpoint)
    (s : Server σ η) : Prop where
  capacity : s.table.capacity = limit
  nodup : s.table.endpoints.Nodup
  timers : (s.timers.endpoints ++ due).Perm s.table.endpoints
  filed : ∀ f ∈ s.table.entries, Filed f.1 f.2
  room : s.table.size ≤ limit
  kept : I s.table.files s.store

variable {σ η : Type}

section

variable {s : Server σ η} {e : Endpoint} {now : Time} {t : Transfer η}

theorem settle_closed (packet : Bytes) : s.settle e (.closed packet) now =
    { s with table := s.table.erase e, timers := s.timers.cancel e } := rfl

theorem settle_noReply : s.settle e .noReply now = s := rfl

theorem settle_reply {packet : Bytes} (hp : packet ≠ []) (ht : s.table.find? e = some t) :
    s.settle e (.reply packet) now =
      { s with timers := s.timers.arm e (now + .seconds t.timeout) } := by
  have hne : packet.isEmpty = false := by simpa using hp
  simp [settle, Action.packet, hne, ht]

theorem perm_cons_filter {l : List Endpoint} (hn : l.Nodup) (he : e ∈ l) :
    l.Perm (e :: l.filter (· ≠ e)) := by
  have h := List.perm_cons_erase he
  rw [hn.erase_eq_filter] at h
  have hp : (fun f => f != e) = fun f => decide (f ≠ e) := by
    funext f
    rw [Bool.eq_iff_iff]
    simp
  rwa [hp] at h

end

section

variable [Storage σ η] {ready : σ → Prop} {named : Bytes → Prop} {I : List η → σ → Prop}
  {limit : Nat} {due : List Endpoint} {s : Server σ η} {e : Endpoint} {now : Time} {t : Transfer η}

omit [Storage σ η] in
theorem Sound.arm (h : Sound I limit due s) (he : e ∈ s.table.endpoints) (deadline : Time) :
    Sound I limit (due.filter (· ≠ e)) { s with timers := s.timers.arm e deadline } :=
  { h with
    timers := calc
      (s.timers.arm e deadline).endpoints ++ due.filter (· ≠ e)
      _ |>.Perm ((e :: s.timers.endpoints.filter (· ≠ e)) ++ due.filter (· ≠ e)) :=
        (Deadlines.endpoints_arm _ e deadline).append_right _
      _ |>.Perm (e :: (s.timers.endpoints ++ due).filter (· ≠ e)) := .of_eq (by simp)
      _ |>.Perm (e :: s.table.endpoints.filter (· ≠ e)) := (h.timers.filter _).cons e
      _ |>.Perm s.table.endpoints := (perm_cons_filter h.nodup he).symm }

theorem Sound.replace (k : Storage.Kept ready named I) (h : Sound I limit due s)
    (hf : s.table.find? e = some t) {u : Transfer η} (hu : Filed e u) {store : σ}
    (kept : I (u.files ++ (s.table.erase e).files) store) :
    Sound I limit due { s with store := store, table := s.table.replace e u } := by
  have hnew := TransferTable.replace_perm h.nodup hf u
  exact {
    capacity := h.capacity
    nodup := by simpa using h.nodup
    timers := by simpa using h.timers
    filed := fun f hm => by
      rcases List.mem_cons.1 (hnew.mem_iff.1 hm) with rfl | hm
      · exact hu
      · exact h.filed f (List.mem_filter.1 hm).1
    room := by simpa [TransferTable.size, TransferTable.replace] using h.room
    kept := k.perm (hnew.flatMap_right _).symm kept }

omit [Storage σ η] in
theorem Sound.erase (h : Sound I limit due s) {store : σ} (kept : I (s.table.erase e).files store) :
    Sound I limit (due.filter (· ≠ e))
      { s with store := store, table := s.table.erase e, timers := s.timers.cancel e } where
  capacity := h.capacity
  nodup := by
    rw [TransferTable.endpoints_erase]
    exact h.nodup.filter _
  timers := by
    rw [Deadlines.endpoints_cancel, TransferTable.endpoints_erase, ← List.filter_append]
    exact h.timers.filter _
  filed := fun f hm => h.filed f (List.mem_filter.1 hm).1
  room := Nat.le_trans (List.length_filter_le _ _) h.room
  kept := kept

theorem Sound.adopt (k : Storage.Kept ready named I) (h : Sound I limit due s)
    (hf : s.table.find? e = some t) {step : Step σ η} (terms : step.transfer.terms = t.terms)
    (kept : ∀ rest, I (t.files ++ rest) s.store → I (step.transfer.files ++ rest) step.store)
    (outcome : Transfer.Outcome t step) (hd : step.action = .noReply → due = []) :
    Sound I limit (due.filter (· ≠ e)) (s.adopt e step now) := by
  have he : e ∈ s.table.endpoints := TransferTable.find?_isSome_iff.1 (by simp [hf])
  have hfiled : Filed e t := h.filed _ (TransferTable.mem_of_find? hf)
  have hfiles : I (step.transfer.files ++ (s.table.erase e).files) step.store :=
    kept _ (k.perm ((TransferTable.entries_perm h.nodup hf).flatMap_right _) h.kept)
  unfold Server.adopt
  cases outcome with
  | unmoved action transfer =>
    rw [hd action, action, settle_noReply]
    have hs := h.replace k hf (transfer.symm ▸ hfiled) hfiles
    rwa [hd action] at hs
  | replied packet action sent running =>
    have hnew : Filed e step.transfer := {
      peer := (congrArg Transfer.Terms.peer terms).trans hfiled.peer
      running := running
      blockSize := by
        have hb : step.transfer.blockSize = t.blockSize := congrArg Transfer.Terms.blockSize terms
        rw [hb]
        exact hfiled.blockSize }
    have hs := h.replace k hf hnew hfiles
    have hfind : ((s.table.replace e step.transfer).find? e).isSome := by
      rw [TransferTable.find?_isSome_iff, TransferTable.endpoints_replace]
      exact he
    obtain ⟨u, hu⟩ := Option.isSome_iff_exists.1 hfind
    rw [action, settle_reply sent hu]
    exact hs.arm (by simpa using he) _
  | closed packet action ended =>
    rw [action, settle_closed]
    rw [Transfer.files, ended] at hfiles
    simpa using h.erase hfiles

omit [Storage σ η] in
theorem Sound.store (h : Sound I limit due s) {store : σ} (kept : I s.table.files store) :
    Sound I limit due { s with store := store } :=
  { h with kept := kept }

theorem Sound.insert (k : Storage.Kept ready named I) (h : Sound I limit [] s) {u : Transfer η}
    (hu : Filed e u) {table : TransferTable η} (hi : s.table.insert? u = some table) {store : σ}
    (kept : I (u.files ++ s.table.files) store) (deadline : Time) :
    Sound I limit []
      { s with store := store, table := table, timers := s.timers.arm e deadline } := by
  obtain ⟨hroom, hnew, rfl⟩ := TransferTable.insert?_eq_some_iff.1 hi
  rw [hu.peer] at hnew ⊢
  have htimers : e ∉ s.timers.endpoints := fun he =>
    hnew (h.timers.mem_iff.1 (List.mem_append_left _ he))
  have hfilter : s.timers.endpoints.filter (· ≠ e) = s.timers.endpoints :=
    List.filter_eq_self.2 fun f hf => by simpa using ne_of_mem_of_not_mem hf htimers
  exact {
    capacity := h.capacity
    nodup := by
      simp only [TransferTable.endpoints, List.map_append, List.map_cons, List.map_nil]
      exact (List.nodup_append_comm.2 (List.nodup_cons.2 ⟨hnew, h.nodup⟩))
    timers := by
      have ha := Deadlines.endpoints_arm s.timers e deadline
      rw [hfilter] at ha
      have ht := h.timers
      rw [List.append_nil] at ht ⊢
      simp only [TransferTable.endpoints, List.map_append, List.map_cons, List.map_nil]
      exact ha.trans ((ht.cons e).trans (List.perm_append_singleton e _).symm)
    filed := fun f hf => by
      rcases List.mem_append.1 hf with hf | hf
      · exact h.filed f hf
      · rw [List.mem_singleton.1 hf]
        exact hu
    room := by
      rw [h.capacity] at hroom
      simp only [TransferTable.size, List.length_append, List.length_singleton] at hroom ⊢
      exact hroom
    kept := by
      have hp : (u.files ++ s.table.files).Perm (s.table.files ++ u.files) := List.perm_append_comm
      simpa [TransferTable.files] using k.perm hp kept }

omit [Storage σ η] in
theorem Sound.armed_iff (h : Sound I limit [] s) :
    s.timers.armed e ↔ (s.table.find? e).isSome := by
  have ht := h.timers
  rw [List.append_nil] at ht
  rw [TransferTable.find?_isSome_iff, Deadlines.armed_iff, ht.mem_iff]

omit [Storage σ η] in
theorem Sound.timers_perm (h : Sound I limit [] s) :
    s.timers.endpoints.Perm s.table.endpoints := by
  have ht := h.timers
  rwa [List.append_nil] at ht

theorem Sound.openTransfer (k : Storage.Kept ready named I) (h : Sound I limit [] s) {d : Direction}
    {r : Request} (hr : ready s.store) (hn : named r.filename) :
    Sound I limit [] (s.openTransfer e d r now).server := by
  unfold Server.openTransfer
  split
  · exact h
  · split
    · rename_i ho
      exact h.store (k.refused ho hr hn h.kept)
    · rename_i file store ho
      have hfile := k.opened ho hr hn h.kept
      let t := Transfer.new e d r.filename file (negotiate r.options).1 s.limits
      have hstart : I ((t.start store).transfer.files ++ s.table.files) (t.start store).store :=
        k.start (t := t) hfile
      have hterms := Transfer.terms_start t store
      have hphase : t.phase = .negotiating file := rfl
      rcases Transfer.outcome_start store hphase (Nat.zero_le _) with
        ⟨packet, ha, hp, hrun⟩ | ⟨packet, ha, hover⟩
      · dsimp only
        rw [ha]
        dsimp only
        split
        · rename_i table hi
          have hfiled : Filed e (t.start store).transfer := {
            peer := congrArg Transfer.Terms.peer hterms
            running := hrun
            blockSize := Transfer.blockSize_start e d r.filename file r.options s.limits store }
          exact h.insert k hfiled hi hstart _
        · exact h.store (k.discard hstart)
      · dsimp only
        rw [ha]
        rw [Transfer.files, hover] at hstart
        exact h.store hstart

theorem Sound.react (k : Storage.Kept ready named I) (h : Sound I limit due s)
    (hf : s.table.find? e = some t) (event : Transfer.Event)
    (hd : (t.react s.store event).action = .noReply → due = []) :
    Sound I limit (due.filter (· ≠ e)) (s.adopt e (t.react s.store event) now) :=
  h.adopt k hf (Transfer.terms_react t s.store event) (fun _ hi => k.react event hi)
    ((h.filed _ (TransferTable.mem_of_find? hf)).running.react event) hd

theorem dispatch_eq_react {p : Packet} (hp : ∀ d r, p ≠ .request d r) :
    ∃ event : Transfer.Event, ∀ (t : Transfer η) (store : σ),
      dispatch t store p = t.react store event := by
  cases p with
  | request d r => exact absurd rfl (hp d r)
  | ack block => exact ⟨.ack block, fun _ _ => rfl⟩
  | data block payload => exact ⟨.data block payload, fun _ _ => rfl⟩
  | error code message => exact ⟨.error code message, fun _ _ => rfl⟩
  | optionAck options => exact ⟨.illegal _, fun _ _ => rfl⟩

theorem Sound.route (k : Storage.Kept ready named I) (h : Sound I limit [] s) (p : Packet)
    (hr : ready s.store) (hn : ∀ d r, p = .request d r → named r.filename) :
    Sound I limit [] (s.route e p now).server := by
  unfold Server.route
  split
  · exact h
  · rename_i p _ _ t hf hp
    obtain ⟨event, hevent⟩ := dispatch_eq_react (σ := σ) (η := η) hp
    rw [hevent]
    exact h.react k hf event fun _ => rfl
  · exact h.openTransfer k hr (hn _ _ rfl)
  · exact h

theorem Sound.retry (k : Storage.Kept ready named I) (link : Link)
    (h : Sound I limit (e :: due) s) : Sound I limit due (s.retry link now e).1 := by
  have hnodup : (e :: due).Nodup := (List.nodup_append.1 (h.timers.nodup_iff.2 h.nodup)).2.1
  have hdue : (e :: due).filter (· ≠ e) = due := by
    have hne := (List.nodup_cons.1 hnodup).1
    simpa using fun f hf => ne_of_mem_of_not_mem hf hne
  have he : e ∈ s.table.endpoints :=
    h.timers.mem_iff.1 (List.mem_append_right _ List.mem_cons_self)
  unfold Server.retry
  split
  · rename_i hf
    exact absurd he (TransferTable.find?_eq_none_iff.1 hf)
  · rename_i t hf
    have hrun := (h.filed _ (TransferTable.mem_of_find? hf)).running
    rw [← hdue]
    exact h.react k hf .timeout fun hq => absurd hq hrun.onTimeout.2

theorem Sound.retryAll (k : Storage.Kept ready named I) (link : Link) (h : Sound I limit due s) :
    Sound I limit [] (s.retryAll link now due).1 := by
  induction due generalizing s with
  | nil => exact h
  | cons e due ih => exact ih (h.retry k link)

omit [Storage σ η] in
theorem Sound.taken (h : Sound I limit [] s) (now : Time) :
    Sound I limit (s.timers.expire now).1 { s with timers := (s.timers.expire now).2 } :=
  { h with
    timers := by
      have ht := h.timers
      rw [List.append_nil, ← Deadlines.endpoints_expire s.timers now] at ht
      exact List.perm_append_comm.trans ht }

theorem Sound.expire (k : Storage.Kept ready named I) (link : Link) (h : Sound I limit [] s) :
    Sound I limit [] (s.expire link now).1 := (h.taken now).retryAll k link

theorem releaseAll_kept (k : Storage.Kept ready named I) {entries : List (Endpoint × Transfer η)}
    {store : σ} (h : I (entries.flatMap (·.2.files)) store) :
    I [] (releaseAll entries store).2 := by
  induction entries generalizing store with
  | nil => exact h
  | cons f entries ih => exact ih (k.discard h)

theorem Sound.shutdown (k : Storage.Kept ready named I) (h : Sound I limit [] s) :
    Sound I limit [] s.shutdown.1 where
  capacity := h.capacity
  nodup := List.nodup_nil
  timers := .refl _
  filed := nofun
  room := Nat.zero_le _
  kept := releaseAll_kept k (k.perm (s.table.listing_perm.symm.flatMap_right _) h.kept)

def Event.Named (named : Bytes → Prop) : Event → Prop
  | .datagram _ _ bytes _ => ∀ d r, Packet.decode bytes = .ok (.request d r) → named r.filename
  | .packet _ p _ => ∀ d r, p = .request d r → named r.filename
  | .expiry .. => True
  | .shutdown => True

theorem Event.named_trivial (event : Event) : event.Named fun _ => True := by
  cases event <;> simp [Named]

theorem Sound.step (k : Storage.Kept ready named I) (h : Sound I limit [] s) {event : Event}
    (hr : ready s.store) (hn : event.Named named) : Sound I limit [] (s.step event).1 := by
  cases event with
  | datagram link peer bytes now =>
    change Sound I limit [] (s.receive link peer bytes now).1
    unfold receive
    split
    · exact h
    · rename_i p hp
      exact h.route k p hr fun d r he => hn d r (he ▸ hp)
  | packet peer p now => exact h.route k p hr hn
  | expiry link now => exact h.expire k link
  | shutdown => exact h.shutdown k

theorem run_cons (s : Server σ η) (event : Event) (events : List Event) :
    s.run (event :: events) =
      (((s.step event).1.run events).1, (s.step event).2 ++ ((s.step event).1.run events).2) := rfl

theorem Sound.run (k : Storage.Kept ready named I) (h : Sound I limit [] s) {events : List Event}
    (hr : ∀ before, before <+: events → ready (s.run before).1.store)
    (hn : ∀ event ∈ events, event.Named named) : Sound I limit [] (s.run events).1 := by
  induction events generalizing s with
  | nil => exact h
  | cons event events ih =>
    have hs := h.step k (hr [] List.nil_prefix) (hn event List.mem_cons_self)
    exact ih hs (fun before hb => hr (event :: before) (List.cons_prefix_cons.2 ⟨rfl, hb⟩))
      fun f hf => hn f (List.mem_cons_of_mem _ hf)

theorem Sound.run_always (k : Storage.Kept (fun _ => True) (fun _ => True) I)
    (h : Sound I limit [] s) (events : List Event) : Sound I limit [] (s.run events).1 :=
  h.run k (fun _ _ => trivial) fun e _ => e.named_trivial

end

end Server
end Tftp
