import Tftp.Alarms

namespace Tftp

theorem eq_of_pairwise_ne {α β : Type} {f : α → β} {l : List α} (h : l.Pairwise (f · ≠ f ·))
    {x y : α} (hx : x ∈ l) (hy : y ∈ l) (hf : f x = f y) : x = y := by
  induction h with
  | nil => cases hx
  | cons hne _ ih =>
    rcases List.mem_cons.1 hx with hx | hx <;> rcases List.mem_cons.1 hy with hy | hy
    · rw [hx, hy]
    · exact absurd (hx ▸ hf) (hne y hy)
    · exact absurd (hy ▸ hf).symm (hne x hx)
    · exact ih hx hy

def Alarm.entry (x : Alarm) : Endpoint × Nat := (x.peer, x.number)

namespace Alarms

/-- Every alarm of the queue has its entry in the index, and every entry its alarm. -/
structure Tied (a : Alarms) : Prop where
  ordered : a.queue.Pairwise (·.time ≤ ·.time)
  peers : a.queue.Pairwise (·.peer ≠ ·.peer)
  numbers : a.queue.Pairwise (·.number ≠ ·.number)
  issued : ∀ x ∈ a.queue, x.number < a.issued
  index : a.index.Perm (a.queue.map Alarm.entry)

variable {a : Alarms} {e f : Endpoint} {t now : Time} {n : Nat} {x y : Alarm} {q : List Alarm}
  {index : List (Endpoint × Nat)}

theorem tied_empty : Tied {} where
  ordered := .nil
  peers := .nil
  numbers := .nil
  issued := nofun
  index := .nil

theorem enqueue_perm (x : Alarm) (q : List Alarm) : (enqueue x q).Perm (x :: q) := by
  induction q with
  | nil => exact .refl _
  | cons y q ih =>
    rw [enqueue]
    split
    · exact (ih.cons y).trans (.swap ..)
    · exact .refl _

theorem pairwise_enqueue {R : Alarm → Alarm → Prop} (hq : q.Pairwise (·.time ≤ ·.time))
    (h : q.Pairwise R) (hle : ∀ y ∈ q, y.time ≤ x.time → R y x)
    (hlt : ∀ y ∈ q, x.time < y.time → R x y) : (enqueue x q).Pairwise R := by
  induction q with
  | nil => exact List.pairwise_singleton _ _
  | cons y q ih =>
    obtain ⟨hy, hq⟩ := List.pairwise_cons.1 hq
    obtain ⟨hR, hrest⟩ := List.pairwise_cons.1 h
    rw [enqueue]
    split
    · rename_i hyx
      have hbehind := ih hq hrest (fun z hz => hle z (List.mem_cons_of_mem y hz))
        fun z hz => hlt z (List.mem_cons_of_mem y hz)
      refine List.pairwise_cons.2 ⟨fun z hz => ?_, hbehind⟩
      rcases List.mem_cons.1 ((enqueue_perm x q).mem_iff.1 hz) with rfl | hz
      · exact hle y List.mem_cons_self hyx
      · exact hR z hz
    · rename_i hyx
      have hxy : x.time < y.time := Int64.not_le.1 hyx
      refine List.pairwise_cons.2 ⟨fun z hz => hlt z hz ?_, h⟩
      rcases List.mem_cons.1 hz with rfl | hz
      · exact hxy
      · exact Int64.lt_of_lt_of_le hxy (hy z hz)

namespace Tied

theorem lookup_of_mem (h : a.Tied) (hx : x ∈ a.queue) :
    a.index.lookup x.peer = some x.number := by
  have hentry : x.entry ∈ a.index := h.index.mem_iff.2 (List.mem_map_of_mem hx)
  cases hl : a.index.lookup x.peer with
  | none =>
    rw [List.lookup_eq_none_iff] at hl
    simpa [Alarm.entry] using hl _ hentry
  | some n =>
    obtain ⟨l, l', heq, -⟩ := List.lookup_eq_some_iff.1 hl
    have hmem : (x.peer, n) ∈ a.index := by simp [heq]
    obtain ⟨y, hy, hyx⟩ := List.mem_map.1 (h.index.mem_iff.1 hmem)
    obtain ⟨hpeer, rfl⟩ := Prod.mk.inj hyx
    rw [eq_of_pairwise_ne h.peers hy hx hpeer]

theorem lookup_eq_some_iff (h : a.Tied) :
    a.index.lookup e = some n ↔ ∃ x ∈ a.queue, x.peer = e ∧ x.number = n := by
  constructor
  · intro hl
    obtain ⟨l, l', heq, -⟩ := List.lookup_eq_some_iff.1 hl
    have hmem : (e, n) ∈ a.index := by simp [heq]
    obtain ⟨x, hx, hentry⟩ := List.mem_map.1 (h.index.mem_iff.1 hmem)
    exact ⟨x, hx, congrArg Prod.fst hentry, congrArg Prod.snd hentry⟩
  · rintro ⟨x, hx, rfl, rfl⟩
    exact h.lookup_of_mem hx

theorem lookup_eq_none_iff (h : a.Tied) : a.index.lookup e = none ↔ ∀ x ∈ a.queue, x.peer ≠ e := by
  rw [Option.eq_none_iff_forall_ne_some]
  constructor
  · rintro hl x hx rfl
    exact hl _ (h.lookup_of_mem hx)
  · intro hne n hl
    obtain ⟨x, hx, rfl, -⟩ := h.lookup_eq_some_iff.1 hl
    exact hne x hx rfl

theorem queue_cancel (h : a.Tied) (e : Endpoint) :
    (a.cancel e).queue = a.queue.filter (·.peer ≠ e) := by
  unfold cancel
  split
  · rename_i hl
    exact (List.filter_eq_self.2 fun x hx => by simpa using h.lookup_eq_none_iff.1 hl x hx).symm
  · rename_i n hl
    obtain ⟨x, hx, rfl, rfl⟩ := h.lookup_eq_some_iff.1 hl
    refine List.filter_congr fun y hy => ?_
    rw [decide_eq_decide]
    refine not_congr ?_
    constructor
    · exact fun hn => congrArg Alarm.peer (eq_of_pairwise_ne h.numbers hy hx hn)
    · exact fun hp => congrArg Alarm.number (eq_of_pairwise_ne h.peers hy hx hp)

theorem index_cancel (a : Alarms) (e : Endpoint) :
    (a.cancel e).index = a.index.filter (·.1 ≠ e) := by
  unfold cancel
  split
  · rename_i hl
    refine (List.filter_eq_self.2 fun x hx => ?_).symm
    have hne : e ≠ x.1 := by simpa using List.lookup_eq_none_iff.1 hl x hx
    simpa using hne.symm
  · rfl

theorem issued_cancel (a : Alarms) (e : Endpoint) : (a.cancel e).issued = a.issued := by
  unfold cancel
  split <;> rfl

theorem filter_perm {p : Endpoint → Bool} (h : index.Perm (q.map Alarm.entry)) :
    (index.filter fun k => p k.1).Perm ((q.filter fun x => p x.peer).map Alarm.entry) := by
  have hf := h.filter fun k => p k.1
  rwa [List.filter_map] at hf

theorem cancel (h : a.Tied) (e : Endpoint) : (a.cancel e).Tied where
  ordered := by
    rw [h.queue_cancel]
    exact h.ordered.filter _
  peers := by
    rw [h.queue_cancel]
    exact h.peers.filter _
  numbers := by
    rw [h.queue_cancel]
    exact h.numbers.filter _
  issued x hx := by
    rw [h.queue_cancel] at hx
    rw [issued_cancel]
    exact h.issued x (List.mem_filter.1 hx).1
  index := by
    rw [h.queue_cancel, index_cancel]
    exact filter_perm (p := (· ≠ e)) h.index

theorem arm (h : a.Tied) (e : Endpoint) (t : Time) : (a.arm e t).Tied := by
  have hc := h.cancel e
  have hne : ∀ x ∈ (a.cancel e).queue, x.peer ≠ e := fun x hx => by
    rw [h.queue_cancel] at hx
    simpa using (List.mem_filter.1 hx).2
  have hperm := enqueue_perm ⟨(a.cancel e).issued, t, e⟩ (a.cancel e).queue
  exact {
    ordered := pairwise_enqueue hc.ordered hc.ordered (fun _ _ hle => hle)
      fun _ _ hlt => Int64.le_of_lt hlt
    peers := (hperm.pairwise_iff Ne.symm).2 (List.pairwise_cons.2
      ⟨fun x hx => (hne x hx).symm, hc.peers⟩)
    numbers := (hperm.pairwise_iff Ne.symm).2 (List.pairwise_cons.2
      ⟨fun x hx => Nat.ne_of_gt (hc.issued x hx), hc.numbers⟩)
    issued := fun x hx => by
      rcases List.mem_cons.1 (hperm.mem_iff.1 hx) with rfl | hx
      · exact Nat.lt_succ_self _
      · exact Nat.lt_succ_of_lt (hc.issued x hx)
    index := (hc.index.cons _).trans (hperm.map Alarm.entry).symm }

theorem takeDue_eq (now : Time) (hp : q.Pairwise (·.peer ≠ ·.peer))
    (h : index.Perm (q.map Alarm.entry)) :
    (takeDue now q index).1 = (q.takeWhile (·.time ≤ now)).map (·.peer) ∧
      (takeDue now q index).2.1 = q.dropWhile (·.time ≤ now) ∧
      (takeDue now q index).2.2.Perm ((q.dropWhile (·.time ≤ now)).map Alarm.entry) := by
  induction q generalizing index with
  | nil => exact ⟨rfl, rfl, h⟩
  | cons x q ih =>
    obtain ⟨hx, hp⟩ := List.pairwise_cons.1 hp
    by_cases hle : x.time ≤ now
    · have hrest : (index.filter (·.1 ≠ x.peer)).Perm (q.map Alarm.entry) := by
        have hq : (x :: q).filter (·.peer ≠ x.peer) = q := by
          rw [List.filter_cons_of_neg (by simp), List.filter_eq_self]
          exact fun y hy => by simpa using (hx y hy).symm
        have hf := filter_perm (p := (· ≠ x.peer)) h
        rwa [hq] at hf
      simpa [takeDue, List.takeWhile_cons, List.dropWhile_cons, hle] using ih hp hrest
    · simpa [takeDue, List.takeWhile_cons, List.dropWhile_cons, hle] using h

theorem expire (h : a.Tied) (now : Time) : (a.expire now).2.Tied := by
  obtain ⟨-, hqueue, hindex⟩ := takeDue_eq now h.peers h.index
  have hsub : (a.expire now).2.queue.Sublist a.queue := by
    change (takeDue now a.queue a.index).2.1.Sublist a.queue
    rw [hqueue]
    exact List.dropWhile_sublist _
  exact {
    ordered := h.ordered.sublist hsub
    peers := h.peers.sublist hsub
    numbers := h.numbers.sublist hsub
    issued := fun x hx => h.issued x (hsub.subset hx)
    index := by
      change (takeDue now a.queue a.index).2.2.Perm ((takeDue now a.queue a.index).2.1.map _)
      rwa [hqueue] }

theorem call (h : a.Tied) (c : Call) : (a.call c).1.Tied := by
  cases c with
  | arm e t => exact h.arm e t
  | cancel e => exact h.cancel e
  | clear => exact tied_empty
  | expire now => exact h.expire now

theorem run (h : a.Tied) (calls : List Call) : (a.run calls).Tied := by
  induction calls generalizing a with
  | nil => exact h
  | cons c calls ih => exact ih (h.call c)

end Tied
end Alarms

structure Deadlines extends Alarms where
  tied : toAlarms.Tied

namespace Deadlines

instance : EmptyCollection Deadlines := ⟨⟨{}, Alarms.tied_empty⟩⟩

def cancel (d : Deadlines) (e : Endpoint) : Deadlines := ⟨d.toAlarms.cancel e, d.tied.cancel e⟩

def arm (d : Deadlines) (e : Endpoint) (t : Time) : Deadlines :=
  ⟨d.toAlarms.arm e t, d.tied.arm e t⟩

def expire (d : Deadlines) (now : Time) : List Endpoint × Deadlines :=
  ((d.toAlarms.expire now).1, ⟨(d.toAlarms.expire now).2, d.tied.expire now⟩)

def run (d : Deadlines) (calls : List Alarms.Call) : Deadlines :=
  ⟨d.toAlarms.run calls, d.tied.run calls⟩

end Deadlines
end Tftp
