import Mathlib.Algebra.GroupWithZero.Nat
import Mathlib.Algebra.Ring.Int.Defs
import Mathlib.Data.List.Nodup
import Mathlib.Data.List.TakeWhile
import Tftp.Deadlines

namespace Tftp
namespace Time

theorem toInt_add_seconds (now : Time) (n : Int64) :
    (now + seconds n).toInt = (now.toInt + n.toInt * 1000000000).bmod (2 ^ 64) := by
  have hsecond : (1000000000 : Int64).toInt = 1000000000 := rfl
  rw [Int64.toInt_add, seconds, Int64.toInt_mul, hsecond, Int.add_bmod_bmod]

/-- So many seconds later the clock has not passed its last time. -/
def Fits (now : Time) (n : Int64) : Prop := now.toInt + n.toInt * 1000000000 < 2 ^ 63

instance (now : Time) (n : Int64) : Decidable (now.Fits n) :=
  inferInstanceAs (Decidable (_ < _))

theorem toInt_add_seconds_le (now : Time) {n : Int64} (h : 0 ≤ n) :
    (now + seconds n).toInt ≤ now.toInt + n.toInt * 1000000000 := by
  have hn : 0 ≤ n.toInt := Int64.le_iff_toInt_le.1 h
  have hfirst := now.le_toInt
  rw [toInt_add_seconds, Int.bmod_def]
  split <;> omega

theorem lt_add_seconds {now : Time} {n : Int64} (h : 1 ≤ n) (hfits : now.Fits n) :
    now < now + seconds n := by
  have hn : 1 ≤ n.toInt := Int64.le_iff_toInt_le.1 h
  have hfirst := now.le_toInt
  have hexact : (now + seconds n).toInt = now.toInt + n.toInt * 1000000000 := by
    rw [toInt_add_seconds, Int.bmod_eq_of_le] <;> unfold Fits at hfits <;> omega
  rw [Int64.lt_iff_toInt_lt, hexact]
  omega

end Time

namespace Deadlines

def endpoints (d : Deadlines) : List Endpoint := d.queue.map (·.peer)

variable {d : Deadlines} {e f : Endpoint} {t now : Time} {x : Alarm} {q : List Alarm}

theorem size_endpoints (d : Deadlines) : d.endpoints.length = d.size := by
  rw [endpoints, List.length_map, Alarms.size, d.tied.index.length_eq, List.length_map]

theorem endpoints_nodup (d : Deadlines) : d.endpoints.Nodup := List.pairwise_map.2 d.tied.peers

@[simp] theorem queue_cancel (d : Deadlines) (e : Endpoint) :
    (d.cancel e).queue = d.queue.filter (·.peer ≠ e) := d.tied.queue_cancel e

@[simp] theorem queue_arm (d : Deadlines) (e : Endpoint) (t : Time) :
    (d.arm e t).queue =
      Alarms.enqueue ⟨d.issued, t, e⟩ (d.queue.filter (·.peer ≠ e)) := by
  change Alarms.enqueue ⟨(d.toAlarms.cancel e).issued, t, e⟩ (d.toAlarms.cancel e).queue = _
  rw [d.tied.queue_cancel, Alarms.Tied.issued_cancel]

theorem expire_eq (d : Deadlines) (now : Time) :
    (d.expire now).1 = (d.queue.takeWhile (·.time ≤ now)).map (·.peer) ∧
      (d.expire now).2.queue = d.queue.dropWhile (·.time ≤ now) :=
  have h := Alarms.Tied.takeDue_eq now d.tied.peers d.tied.index
  ⟨h.1, h.2.1⟩

theorem find?_number (hx : x ∈ d.queue) : d.queue.find? (·.number = x.number) = some x := by
  obtain ⟨y, hy⟩ := Option.isSome_iff_exists.1
    (List.find?_isSome (p := (·.number = x.number)).2 ⟨x, hx, by simp⟩)
  have hnumber : y.number = x.number := by simpa using List.find?_some hy
  rw [hy, eq_of_pairwise_ne d.tied.numbers (List.mem_of_find?_eq_some hy) hx hnumber]

theorem deadline?_eq_some_iff :
    d.deadline? e = some t ↔ ∃ x ∈ d.queue, x.peer = e ∧ x.time = t := by
  unfold Alarms.deadline?
  constructor
  · intro h
    split at h
    · cases h
    · rename_i n hl
      obtain ⟨x, hx, hxe, rfl⟩ := d.tied.lookup_eq_some_iff.1 hl
      rw [find?_number hx] at h
      exact ⟨x, hx, hxe, Option.some.inj h⟩
  · rintro ⟨x, hx, rfl, rfl⟩
    rw [d.tied.lookup_of_mem hx]
    dsimp only
    rw [find?_number hx]
    rfl

theorem deadline?_eq_none_iff : d.deadline? e = none ↔ e ∉ d.endpoints := by
  rw [Option.eq_none_iff_forall_ne_some, endpoints, List.mem_map]
  constructor
  · rintro hnone ⟨x, hx, hxe⟩
    exact hnone x.time (deadline?_eq_some_iff.2 ⟨x, hx, hxe, rfl⟩)
  · intro he t ht
    obtain ⟨x, hx, hxe, -⟩ := deadline?_eq_some_iff.1 ht
    exact he ⟨x, hx, hxe⟩

theorem armed_eq (d : Deadlines) (e : Endpoint) : d.armed e = (d.deadline? e).isSome := by
  unfold Alarms.armed Alarms.deadline?
  cases hl : d.index.lookup e with
  | none => rfl
  | some n =>
    obtain ⟨x, hx, -, rfl⟩ := d.tied.lookup_eq_some_iff.1 hl
    have hfound : (d.queue.find? (·.number = x.number)).isSome :=
      List.find?_isSome.2 ⟨x, hx, by simp⟩
    simp [hfound]

theorem armed_iff : d.armed e ↔ e ∈ d.endpoints := by
  rw [armed_eq, ← not_iff_not, ← deadline?_eq_none_iff]
  simp

@[simp] theorem endpoints_cancel (d : Deadlines) (e : Endpoint) :
    (d.cancel e).endpoints = d.endpoints.filter (· ≠ e) := by
  rw [endpoints, queue_cancel, endpoints, List.filter_map]
  rfl

theorem endpoints_arm (d : Deadlines) (e : Endpoint) (t : Time) :
    (d.arm e t).endpoints.Perm (e :: d.endpoints.filter (· ≠ e)) := by
  rw [← endpoints_cancel, endpoints, queue_arm, endpoints, queue_cancel]
  exact (Alarms.enqueue_perm _ _).map (·.peer)

theorem endpoints_expire (d : Deadlines) (now : Time) :
    (d.expire now).1 ++ (d.expire now).2.endpoints = d.endpoints := by
  rw [(d.expire_eq now).1, endpoints, (d.expire_eq now).2, ← List.map_append,
    List.takeWhile_append_dropWhile]
  rfl

@[simp] theorem deadline?_cancel_self (d : Deadlines) (e : Endpoint) :
    (d.cancel e).deadline? e = none := by
  simp [deadline?_eq_none_iff]

theorem cancel_of_deadline?_eq_none (h : d.deadline? e = none) : d.cancel e = d := by
  have harmed : d.armed e = false := by rw [armed_eq, h]; rfl
  have hl : d.index.lookup e = none := by simpa [Alarms.armed] using harmed
  have hsame : d.toAlarms.cancel e = d.toAlarms := by rw [Alarms.cancel, hl]
  cases d
  simp only [cancel, hsame]

theorem deadline?_cancel (h : f ≠ e) : (d.cancel e).deadline? f = d.deadline? f := by
  ext t
  simp only [deadline?_eq_some_iff, queue_cancel, List.mem_filter]
  constructor
  · rintro ⟨x, ⟨hx, -⟩, hxf, hxt⟩
    exact ⟨x, hx, hxf, hxt⟩
  · rintro ⟨x, hx, rfl, hxt⟩
    exact ⟨x, ⟨hx, by simpa using h⟩, rfl, hxt⟩

theorem mem_queue_arm : x ∈ (d.arm e t).queue ↔ x = ⟨d.issued, t, e⟩ ∨ x ∈ (d.cancel e).queue := by
  rw [queue_arm, (Alarms.enqueue_perm _ _).mem_iff, List.mem_cons, queue_cancel]

theorem deadline?_arm (h : f ≠ e) : (d.arm e t).deadline? f = d.deadline? f := by
  rw [← deadline?_cancel h (d := d)]
  ext u
  simp only [deadline?_eq_some_iff, mem_queue_arm]
  constructor
  · rintro ⟨x, rfl | hx, hxf, hxu⟩
    · exact absurd hxf.symm h
    · exact ⟨x, hx, hxf, hxu⟩
  · rintro ⟨x, hx, hxf, hxu⟩
    exact ⟨x, .inr hx, hxf, hxu⟩

@[simp] theorem deadline?_arm_self (d : Deadlines) (e : Endpoint) (t : Time) :
    (d.arm e t).deadline? e = some t :=
  deadline?_eq_some_iff.2 ⟨_, mem_queue_arm.2 (.inl rfl), rfl, rfl⟩

theorem lt_of_mem_dropWhile (hq : q.Pairwise (·.time ≤ ·.time))
    (hx : x ∈ q.dropWhile (·.time ≤ now)) : now < x.time := by
  induction q with
  | nil => cases hx
  | cons y q ih =>
    obtain ⟨hy, hq⟩ := List.pairwise_cons.1 hq
    by_cases hle : y.time ≤ now
    · exact ih hq (by simpa [hle] using hx)
    · have hlt : now < y.time := Int64.not_le.1 hle
      rw [List.dropWhile_cons_of_neg (by simpa using hle)] at hx
      rcases List.mem_cons.1 hx with rfl | hx
      · exact hlt
      · exact Int64.lt_of_lt_of_le hlt (hy x hx)

theorem mem_expire : e ∈ (d.expire now).1 ↔ ∃ t, d.deadline? e = some t ∧ t ≤ now := by
  rw [(d.expire_eq now).1, List.mem_map]
  constructor
  · rintro ⟨x, hx, hxe⟩
    exact ⟨x.time, deadline?_eq_some_iff.2 ⟨x, (List.takeWhile_sublist _).subset hx, hxe, rfl⟩,
      by simpa using List.mem_takeWhile_imp hx⟩
  · rintro ⟨t, ht, hle⟩
    obtain ⟨x, hx, hxe, rfl⟩ := deadline?_eq_some_iff.1 ht
    refine ⟨x, ?_, hxe⟩
    rw [← List.takeWhile_append_dropWhile (p := (·.time ≤ now)) (l := d.queue)] at hx
    refine (List.mem_append.1 hx).resolve_right fun hx => ?_
    exact Int64.not_le.2 (lt_of_mem_dropWhile d.tied.ordered hx) hle

theorem deadline?_expire (h : e ∉ (d.expire now).1) :
    (d.expire now).2.deadline? e = d.deadline? e := by
  ext t
  simp only [deadline?_eq_some_iff, (d.expire_eq now).2]
  constructor
  · rintro ⟨x, hx, hxe, hxt⟩
    exact ⟨x, (List.dropWhile_sublist _).subset hx, hxe, hxt⟩
  · rintro ⟨x, hx, rfl, hxt⟩
    refine ⟨x, ?_, rfl, hxt⟩
    rw [← List.takeWhile_append_dropWhile (p := (·.time ≤ now)) (l := d.queue)] at hx
    refine (List.mem_append.1 hx).resolve_left fun hx => h ?_
    rw [(d.expire_eq now).1]
    exact List.mem_map_of_mem hx

theorem deadline?_expire_of_mem (h : e ∈ (d.expire now).1) :
    (d.expire now).2.deadline? e = none := by
  have hn := d.endpoints_nodup
  rw [← endpoints_expire d now] at hn
  exact deadline?_eq_none_iff.2 fun he => (List.nodup_append.1 hn).2.2 e h e he rfl

theorem next?_eq_none_iff : d.next? = none ↔ d.size = 0 := by
  rw [← size_endpoints, List.length_eq_zero_iff]
  simp [Alarms.next?, endpoints]

theorem expire_of_next?_lt (h : ∀ t, d.next? = some t → now < t) : d.expire now = ([], d) := by
  have hsame : d.toAlarms.expire now = ([], d.toAlarms) := by
    rcases d with ⟨⟨_ | ⟨x, queue⟩, index, issued⟩, tied⟩
    · rfl
    · have hx : ¬ x.time ≤ now := Int64.not_le.2 (h x.time rfl)
      simp [Alarms.expire, Alarms.takeDue, hx]
  cases d
  simp only [expire, hsame]

theorem next?_eq_some_iff :
    d.next? = some t ↔ (∃ e, d.deadline? e = some t) ∧ ∀ e u, d.deadline? e = some u → t ≤ u := by
  have hfirst : ∀ x q, d.queue = x :: q → ∀ e u, d.deadline? e = some u → x.time ≤ u := by
    intro x q hq e u hu
    obtain ⟨y, hy, -, rfl⟩ := deadline?_eq_some_iff.1 hu
    have ho := d.tied.ordered
    rw [hq] at ho hy
    rcases List.mem_cons.1 hy with rfl | hy
    · exact Int64.le_refl _
    · exact (List.pairwise_cons.1 ho).1 y hy
  have hown : ∀ x q, d.queue = x :: q → d.deadline? x.peer = some x.time := fun x q hq =>
    deadline?_eq_some_iff.2 ⟨x, hq ▸ List.mem_cons_self, rfl, rfl⟩
  unfold Alarms.next?
  cases hq : d.queue with
  | nil =>
    have hnone : ∀ e, d.deadline? e ≠ some t := fun e he => by
      obtain ⟨x, hx, -⟩ := deadline?_eq_some_iff.1 he
      rw [hq] at hx
      cases hx
    simp [hnone]
  | cons x q =>
    rw [List.head?_cons, Option.map_some, Option.some.injEq]
    constructor
    · rintro rfl
      exact ⟨⟨_, hown x q hq⟩, hfirst x q hq⟩
    · rintro ⟨⟨e, he⟩, hmin⟩
      exact Int64.le_antisymm (hfirst x q hq e t he) (hmin _ _ (hown x q hq))

theorem run_append (d : Deadlines) (calls calls' : List Alarms.Call) :
    d.run (calls ++ calls') = (d.run calls).run calls' := by
  unfold run
  congr 1
  exact List.foldl_append

end Deadlines
end Tftp
