import Tftp.Proofs.Storage.Image
import Tftp.Proofs.Transfer.Simulation

namespace Tftp

variable {σ η τ θ : Type} {f : η → θ} {g : σ → τ}

def Imaged (f : η → θ) (g : σ → τ) (file : η) (store : σ) (file' : θ) (store' : τ) : Prop :=
  file' = f file ∧ store' = g store

theorem Storage.Image.simulation [Storage σ η] [Storage τ θ] (h : Storage.Image f g) :
    Storage.Simulation (Imaged f g) fun store store' => store' = g store where
  size := by
    rintro file store _ _ ⟨rfl, rfl⟩
    exact (h.size file store).symm
  read n := by
    rintro ⟨rfl, rfl⟩
    exact ⟨_, _, _, _, _, rfl, h.read n _ _, rfl, rfl⟩
  write block := by
    rintro ⟨rfl, rfl⟩
    exact ⟨_, _, _, _, _, rfl, h.write block _ _, rfl, rfl⟩
  commit := by
    rintro file store _ _ ⟨rfl, rfl⟩
    exact ⟨_, _, _, _, _, rfl, h.commit file store, rfl, rfl⟩
  release := by
    rintro file store _ _ ⟨rfl, rfl⟩
    rw [h.release]
    exact ⟨rfl, rfl⟩

theorem Step.Simulated.eq_map {a : Step σ η} {b : Step τ θ}
    (h : a.Simulated (Imaged f g) (fun store store' => store' = g store) b) : b = a.map f g := by
  obtain ⟨haction, hlog, u, ha, hb, htied⟩ := h
  have htransfer : b.transfer = a.transfer.map f := by
    rw [ha, hb, Transfer.map_map]
    exact Transfer.map_congr fun p hp => (htied.file p hp).1
  have hstore : b.store = g a.store := by
    cases hp : u.phase.file? with
    | none => exact htied.closed hp
    | some p => exact (htied.file p hp).2
  rw [Step.map, haction, hlog, ← htransfer, ← hstore]

variable [Storage σ η] [Storage τ θ] {t : Transfer η} {store : σ}

namespace Transfer

theorem react_map (h : Storage.Image f g) (e : Event) :
    (t.map f).react (g store) e = (t.react store e).map f g := by
  -- the file beside its image is a pair to begin with
  have hpair : (t.map fun file => (file, f file)).Tied (Imaged f g)
      (fun store store' => store' = g store) store (g store) := by
    refine ⟨fun p hp => ?_, fun _ => rfl⟩
    rw [map_phase, Phase.file?_map, Option.map_eq_some_iff] at hp
    obtain ⟨file, -, rfl⟩ := hp
    exact ⟨rfl, rfl⟩
  have hstep := simulated_react h.simulation hpair e
  rw [map_map, map_map, map_self] at hstep
  exact hstep.eq_map

theorem start_map (h : Storage.Image f g) :
    (t.map f).start (g store) = (t.start store).map f g := react_map h .start

theorem onAck_map (h : Storage.Image f g) (block : UInt16) :
    (t.map f).onAck (g store) block = (t.onAck store block).map f g := react_map h (.ack block)

theorem onData_map (h : Storage.Image f g) (block : UInt16) (payload : Bytes) :
    (t.map f).onData (g store) block payload = (t.onData store block payload).map f g :=
  react_map h (.data block payload)

theorem onError_map (h : Storage.Image f g) (code : ErrorCode) (message : Bytes) :
    (t.map f).onError (g store) code message = (t.onError store code message).map f g :=
  react_map h (.error code message)

theorem onTimeout_map (h : Storage.Image f g) :
    (t.map f).onTimeout (g store) = (t.onTimeout store).map f g := react_map h .timeout

theorem illegal_map (h : Storage.Image f g) (reason : Bytes) :
    (t.map f).illegal (g store) reason = (t.illegal store reason).map f g :=
  react_map h (.illegal reason)

end Transfer

theorem Step.run_map (h : Storage.Image f g) (s : Step σ η) (es : List Transfer.Event) :
    (s.map f g).run es = (s.run es).map f g := by
  induction es generalizing s with
  | nil => rfl
  | cons e es ih =>
    rw [run_cons, run_cons, ← ih]
    exact congrArg (Step.run · es) (Transfer.react_map h e)

end Tftp
