import Tftp.Proofs.Server.Image
import Tftp.Proofs.Server.Sound
import Tftp.Proofs.Storage.Calls

namespace Tftp
namespace Server

variable {σ η : Type}

def new (store : σ) (limits : Limits) (capacity : Nat) : Server σ η where
  store := store
  limits := limits
  table := { capacity := capacity }

def fromPort (port : UInt16) (p : Packet) (now : Time) : Event :=
  .datagram (fun _ _ => true) ⟨2130706433, port⟩ p.bytes now

theorem Sound.new {I : List η → σ → Prop} {store : σ} {limits : Limits} {capacity : Nat}
    (h : I [] store) : Sound I capacity [] (Server.new store limits capacity) where
  capacity := rfl
  nodup := List.nodup_nil
  timers := .refl _
  filed := nofun
  room := Nat.zero_le _
  kept := h

variable [Storage σ η]

theorem run_append (s : Server σ η) (before after : List Event) :
    (s.run (before ++ after)).1 = ((s.run before).1.run after).1 := by
  induction before generalizing s with
  | nil => rfl
  | cons event before ih => exact ih _

theorem Sound.numbering (store : σ) (limits : Limits) (capacity : Nat) (events : List Event) :
    Sound (Recorded.Says Recorded.Numbering) capacity []
      ((Server.new { store := store } limits capacity : Server (Recorded σ) (Numbered η)).run
        events).1 :=
  (Sound.new Recorded.Numbering.empty).run Recorded.Numbering.lawful.kept (fun _ _ => trivial)
    fun e _ => e.named_trivial

def Held (files : List (Numbered η)) (r : Recorded σ) : Prop :=
  (files.map (·.number)).Perm r.alive

theorem held_kept : Storage.Kept (fun _ : Recorded σ => True) (fun _ => True)
    (Held (η := η)) := Recorded.Live.lawful.kept

structure Consistent (capacity : Nat) (s : Server (Recorded σ) (Numbered η)) : Prop where
  nodup : s.table.endpoints.Nodup
  armed : ∀ e, (s.table.find? e).isSome ↔ s.timers.armed e
  timers : s.timers.size = s.table.size
  room : s.table.size ≤ capacity
  filed : ∀ e t, (e, t) ∈ s.table.entries → t.peer = e ∧ (∃ file, t.phase = .transferring file) ∧
    t.lastPacket ≠ [] ∧ t.retries ≤ t.maxRetries ∧ 8 ≤ t.blockSize ∧ t.blockSize ≤ 65464
  held : (s.table.files.map (·.number)).Perm s.store.alive
  alive : s.store.alive.length = s.table.size

omit [Storage σ η] in
theorem length_files {entries : List (Endpoint × Transfer η)}
    (h : ∀ f ∈ entries, f.2.Running) : (entries.flatMap (·.2.files)).length = entries.length := by
  induction entries with
  | nil => rfl
  | cons f entries ih =>
    obtain ⟨file, hp⟩ := (h f List.mem_cons_self).phase
    have hf : f.2.files = [file] := by rw [Transfer.files, hp]; rfl
    rw [List.flatMap_cons, hf, List.length_append, ih fun g hg => h g (List.mem_cons_of_mem f hg)]
    exact Nat.add_comm _ _

omit [Storage σ η] in
theorem Sound.consistent {capacity : Nat} {s : Server (Recorded σ) (Numbered η)}
    (h : Sound Held capacity [] s) : Consistent capacity s := by
  have ht := h.timers
  rw [List.append_nil] at ht
  have hfiles : s.table.files.length = s.table.size :=
    length_files fun f hf => (h.filed f hf).running
  exact {
    nodup := h.nodup
    armed := fun _ => h.armed_iff.symm
    timers := by rw [← Deadlines.size_endpoints, ht.length_eq, TransferTable.size_endpoints]
    room := h.room
    filed := fun e t hm =>
      have hf := h.filed _ hm
      ⟨hf.peer, hf.running.phase, hf.running.lastPacket, hf.running.retries, hf.blockSize⟩
    held := h.kept
    alive := by rw [← h.kept.length_eq, List.length_map, hfiles] }

/-- Whatever happens to a server that starts empty, it is consistent. The record of its files is
kept beside it and has no part in what it does. -/
theorem consistent_run (store : σ) (limits : Limits) (capacity : Nat) (events : List Event) :
    let recorded := (new { store := store } limits capacity : Server (Recorded σ) (Numbered η)).run
      events
    recorded.map (·.map Numbered.file Recorded.store) id =
        (new store limits capacity).run events ∧
      Consistent capacity recorded.1 := by
  have hnew : Sound Held capacity []
      (new ({ store := store } : Recorded σ) limits capacity : Server _ (Numbered η)) :=
    .new (.refl _)
  exact ⟨(run_map Recorded.image _ events).symm,
    (hnew.run held_kept (fun _ _ => trivial) fun e _ => e.named_trivial).consistent⟩

end Server
end Tftp
