import Mathlib.Data.List.Induction
import Mathlib.Data.Set.Card
import Tftp.Proofs.Deadlines

/-!
The queue is a finite map from endpoints to deadlines. Every arming leaves a stamp that is larger
than all before it; what has come is handed out by deadline, and by stamp where deadlines are equal.
-/

namespace Tftp

structure Mark where
  time : Time
  stamp : Nat

def Mark.Before (m n : Mark) : Prop := m.time < n.time ∨ m.time = n.time ∧ m.stamp < n.stamp

/-- Which endpoints have a deadline. The stamp is the one of the next arming. -/
structure Agenda where
  mark? : Endpoint → Option Mark := fun _ => none
  stamp : Nat := 0

namespace Agenda

def next (a : Agenda) : Alarms.Call → Agenda
  | .arm e t => ⟨Function.update a.mark? e (some ⟨t, a.stamp⟩), a.stamp + 1⟩
  | .cancel e => { a with mark? := Function.update a.mark? e none }
  | .clear => { a with mark? := fun _ => none }
  | .expire now => { a with mark? := fun e => (a.mark? e).filter (now < ·.time) }

theorem mark?_arm (a : Agenda) (e : Endpoint) (t : Time) (f : Endpoint) :
    (a.next (.arm e t)).mark? f = if f = e then some ⟨t, a.stamp⟩ else a.mark? f :=
  Function.update_apply ..

theorem mark?_cancel (a : Agenda) (e f : Endpoint) :
    (a.next (.cancel e)).mark? f = if f = e then none else a.mark? f :=
  Function.update_apply ..

theorem mark?_expire_eq_some_iff {a : Agenda} {now : Time} {e : Endpoint} {m : Mark} :
    (a.next (.expire now)).mark? e = some m ↔ a.mark? e = some m ∧ now < m.time := by
  simp [next, Option.filter_eq_some_iff]

def run (a : Agenda) (calls : List Alarms.Call) : Agenda := calls.foldl next a

def endpoints (a : Agenda) : Set Endpoint := {e | (a.mark? e).isSome}

def Sooner (a : Agenda) (e f : Endpoint) : Prop :=
  ∀ m n, a.mark? e = some m → a.mark? f = some n → m.Before n

/-- All endpoints whose deadline has come, each of them once, the soonest first. -/
structure Due (a : Agenda) (now : Time) (due : List Endpoint) : Prop where
  nodup : due.Nodup
  mem : ∀ e, e ∈ due ↔ ∃ m, a.mark? e = some m ∧ m.time ≤ now
  ordered : due.Pairwise a.Sooner

inductive Answers (a : Agenda) : Alarms.Call → Alarms.Answer → Prop
  | arm (e : Endpoint) (t : Time) : Answers a (.arm e t) .done
  | cancel (e : Endpoint) : Answers a (.cancel e) (.cancelled (a.mark? e).isSome)
  | clear : Answers a .clear .done
  | expire {now : Time} {due : List Endpoint} :
      a.Due now due → Answers a (.expire now) (.expired due)

structure Shown (a : Agenda) (d : Deadlines) : Prop where
  deadline? : ∀ e, d.deadline? e = (a.mark? e).map Mark.time
  sooner : d.endpoints.Pairwise a.Sooner
  fresh : ∀ e m, a.mark? e = some m → m.stamp < a.stamp

namespace Shown

variable {a : Agenda} {d : Deadlines} {e : Endpoint} {t now : Time}

theorem empty : Shown {} ∅ where
  deadline? _ := rfl
  sooner := List.Pairwise.nil
  fresh _ _ h := nomatch h

theorem time_of_mem (h : Shown a d) {x : Alarm} (hx : x ∈ d.queue) {m : Mark}
    (hm : a.mark? x.peer = some m) : m.time = x.time := by
  have hd := Deadlines.deadline?_eq_some_iff.2 ⟨x, hx, rfl, rfl⟩
  rw [h.deadline?, hm] at hd
  exact Option.some.inj hd

theorem cancel (h : Shown a d) (e : Endpoint) : Shown (a.next (.cancel e)) (d.cancel e) := by
  have hmark : ∀ f, f ≠ e → (a.next (.cancel e)).mark? f = a.mark? f := fun f hf => by
    rw [mark?_cancel, if_neg hf]
  have hgone : (a.next (.cancel e)).mark? e = none := by rw [mark?_cancel, if_pos rfl]
  exact {
    deadline? := fun f => by
      by_cases hf : f = e
      · rw [hf, Deadlines.deadline?_cancel_self, hgone]
        rfl
      · rw [Deadlines.deadline?_cancel hf, h.deadline?, hmark f hf]
    sooner := by
      rw [Deadlines.endpoints_cancel]
      refine (h.sooner.filter _).imp_of_mem fun {f g} hf hg hs => ?_
      have hfe : f ≠ e := by simpa using (List.mem_filter.1 hf).2
      have hge : g ≠ e := by simpa using (List.mem_filter.1 hg).2
      rwa [Sooner, hmark f hfe, hmark g hge]
    fresh := fun f m hm => by
      by_cases hf : f = e
      · rw [hf, hgone] at hm
        cases hm
      · rw [hmark f hf] at hm
        exact h.fresh f m hm }

theorem arm (h : Shown a d) (e : Endpoint) (t : Time) : Shown (a.next (.arm e t)) (d.arm e t) := by
  have hc := h.cancel e
  have hne : ∀ x ∈ (d.cancel e).queue, x.peer ≠ e := fun x hx => by
    rw [Deadlines.queue_cancel] at hx
    simpa using (List.mem_filter.1 hx).2
  have hmark : ∀ f, f ≠ e → (a.next (.arm e t)).mark? f = (a.next (.cancel e)).mark? f :=
    fun f hf => by rw [mark?_arm, mark?_cancel, if_neg hf, if_neg hf]
  have hnew : (a.next (.arm e t)).mark? e = some ⟨t, a.stamp⟩ := by rw [mark?_arm, if_pos rfl]
  exact {
    deadline? := fun f => by
      by_cases hf : f = e
      · rw [hf, Deadlines.deadline?_arm_self, hnew]
        rfl
      · rw [Deadlines.deadline?_arm hf, hmark f hf, ← hc.deadline?, Deadlines.deadline?_cancel hf]
    sooner := by
      rw [Deadlines.endpoints, Deadlines.queue_arm, ← Deadlines.queue_cancel]
      refine List.pairwise_map.2 (Alarms.pairwise_enqueue (d.cancel e).tied.ordered ?_ ?_ ?_)
      · refine (List.pairwise_map.1 hc.sooner).imp_of_mem fun {x y} hx hy hs => ?_
        rwa [Sooner, hmark _ (hne x hx), hmark _ (hne y hy)]
      · intro x hx hle m n hm hn
        rw [hmark _ (hne x hx)] at hm
        cases hnew.symm.trans hn
        rcases Int64.lt_or_eq_of_le hle with hlt | heq
        · exact .inl (hc.time_of_mem hx hm ▸ hlt)
        · exact .inr ⟨(hc.time_of_mem hx hm).trans heq, hc.fresh _ m hm⟩
      · intro x hx hlt m n hm hn
        rw [hmark _ (hne x hx)] at hn
        cases hnew.symm.trans hm
        exact .inl (hc.time_of_mem hx hn ▸ hlt)
    fresh := fun f m hm => by
      by_cases hf : f = e
      · rw [hf, hnew] at hm
        cases hm
        exact Nat.lt_succ_self _
      · rw [hmark f hf] at hm
        exact Nat.lt_succ_of_lt (hc.fresh f m hm) }

theorem clear (a : Agenda) : Shown (a.next .clear) ∅ :=
  { empty with fresh := fun _ _ hm => nomatch hm }

theorem due (h : Shown a d) (now : Time) : a.Due now (d.expire now).1 := by
  have hsplit := Deadlines.endpoints_expire d now
  exact {
    nodup := (List.nodup_append.1 (hsplit ▸ d.endpoints_nodup)).1
    mem := fun e => by
      rw [Deadlines.mem_expire, h.deadline?]
      simp [Option.map_eq_some_iff]
    ordered := (List.pairwise_append.1 (hsplit ▸ h.sooner)).1 }

theorem expire (h : Shown a d) (now : Time) :
    Shown (a.next (.expire now)) (d.expire now).2 := by
  have hsplit := Deadlines.endpoints_expire d now
  have hmark : ∀ e m, (a.next (.expire now)).mark? e = some m → a.mark? e = some m :=
    fun e m hm => (mark?_expire_eq_some_iff.1 hm).1
  exact {
    deadline? := fun e => by
      by_cases he : e ∈ (d.expire now).1
      · obtain ⟨m, hm, hle⟩ := ((h.due now).mem e).1 he
        rw [Deadlines.deadline?_expire_of_mem he]
        simp [next, hm, hle]
      · rw [Deadlines.deadline?_expire he, h.deadline?]
        cases hm : a.mark? e with
        | none => simp [next, hm]
        | some m =>
          have hlt : now < m.time :=
            Int64.not_le.1 fun hle => he (((h.due now).mem e).2 ⟨m, hm, hle⟩)
          simp [next, hm, hlt]
    sooner := (List.pairwise_append.1 (hsplit ▸ h.sooner)).2.1.imp fun hs m n hm hn =>
      hs m n (hmark _ m hm) (hmark _ n hn)
    fresh := fun e m hm => h.fresh e m (hmark e m hm) }

theorem armed_eq (h : Shown a d) (e : Endpoint) : d.armed e = (a.mark? e).isSome := by
  rw [Deadlines.armed_eq, h.deadline?, Option.isSome_map]

theorem call (h : Shown a d) (c : Alarms.Call) :
    Shown (a.next c) (d.run [c]) ∧ a.Answers c (d.toAlarms.call c).2 := by
  cases c with
  | arm e t => exact ⟨h.arm e t, .arm e t⟩
  | cancel e =>
    refine ⟨h.cancel e, ?_⟩
    rw [Alarms.call, h.armed_eq]
    exact .cancel e
  | clear => exact ⟨.clear a, .clear⟩
  | expire now => exact ⟨h.expire now, .expire (h.due now)⟩

theorem run (h : Shown a d) (calls : List Alarms.Call) : Shown (a.run calls) (d.run calls) := by
  induction calls generalizing a d with
  | nil => exact h
  | cons c calls ih => exact ih (h.call c).1

variable (h : Shown a d)

include h

theorem encard_endpoints : a.endpoints.encard = d.size := by
  have hset : a.endpoints = d.endpoints.toFinset := by
    ext e
    rw [List.coe_toFinset]
    change (a.mark? e).isSome ↔ e ∈ d.endpoints
    rw [← Deadlines.armed_iff, h.armed_eq]
  rw [hset, Set.encard_coe_eq_coe_finsetCard, List.toFinset_card_of_nodup d.endpoints_nodup,
    Deadlines.size_endpoints]

theorem next?_eq_some_iff :
    d.next? = some t ↔
      (∃ e m, a.mark? e = some m ∧ m.time = t) ∧ ∀ e m, a.mark? e = some m → t ≤ m.time := by
  rw [Deadlines.next?_eq_some_iff]
  simp only [h.deadline?, Option.map_eq_some_iff]
  refine and_congr_right fun _ => ⟨?_, ?_⟩
  · exact fun hle e m hm => hle e m.time ⟨m, hm, rfl⟩
  · rintro hle e _ ⟨m, hm, rfl⟩
    exact hle e m hm

theorem next?_eq_none_iff : d.next? = none ↔ ∀ e, a.mark? e = none := by
  rw [Deadlines.next?_eq_none_iff, ← Deadlines.size_endpoints, List.length_eq_zero_iff,
    List.eq_nil_iff_forall_not_mem]
  refine forall_congr' fun e => ?_
  rw [← Deadlines.deadline?_eq_none_iff, h.deadline?, Option.map_eq_none_iff]

end Shown

end Agenda

namespace Alarms

theorem takeDue_takeDue {t u : Time} (h : t ≤ u) (q : List Alarm) (index : List (Endpoint × Nat)) :
    let first := takeDue t q index
    let second := takeDue u first.2.1 first.2.2
    takeDue u q index = (first.1 ++ second.1, second.2) := by
  induction q generalizing index with
  | nil => rfl
  | cons x q ih =>
    by_cases hx : x.time ≤ t
    · have hu : x.time ≤ u := Int64.le_trans hx h
      simp only [takeDue, hx, hu, if_true, ih, List.cons_append]
    · simp [takeDue, hx]

theorem expire_expire (a : Alarms) {t u : Time} (h : t ≤ u) :
    (a.expire t).1 ++ ((a.expire t).2.expire u).1 = (a.expire u).1 ∧
      ((a.expire t).2.expire u).2 = (a.expire u).2 := by
  have hboth := takeDue_takeDue h a.queue a.index
  simp only [expire, hboth, and_self]

def Call.sets? (e : Endpoint) : Call → Option (Option Time)
  | .arm f t => if f = e then some (some t) else none
  | .cancel f => if f = e then some none else none
  | .clear => some none
  | .expire _ => none

/-- The deadline that an endpoint was given last, unless it was taken back after that. -/
def standing? (e : Endpoint) (calls : List Call) : Option Time :=
  calls.foldl (fun t c => (c.sets? e).getD t) none

theorem standing?_of_mark? {calls : List Call} {e : Endpoint} {m : Mark}
    (h : (Agenda.run {} calls).mark? e = some m) : standing? e calls = some m.time := by
  induction calls using List.reverseRecOn generalizing m with
  | nil => cases h
  | append_singleton calls c ih =>
    rw [Agenda.run, List.foldl_append] at h
    rw [standing?, List.foldl_append]
    change ((Agenda.run {} calls).next c).mark? e = some m at h
    change (c.sets? e).getD (standing? e calls) = some m.time
    cases c with
    | arm f t =>
      rw [Agenda.mark?_arm] at h
      by_cases hf : e = f
      · rw [if_pos hf] at h
        cases h
        simp [Call.sets?, hf]
      · rw [if_neg hf] at h
        simpa [Call.sets?, Ne.symm hf] using ih h
    | cancel f =>
      rw [Agenda.mark?_cancel] at h
      by_cases hf : e = f
      · simp [hf] at h
      · rw [if_neg hf] at h
        simpa [Call.sets?, Ne.symm hf] using ih h
    | clear => cases h
    | expire now => exact ih (Agenda.mark?_expire_eq_some_iff.1 h).1

/-- Alarms that some calls have made are the map that they make. -/
structure AsMap (calls : List Call) (a : Alarms) (m : Agenda) : Prop where
  /-- An entry of the index is an alarm of the queue, and the other way round. -/
  both : ∀ e n, a.index.lookup e = some n ↔ ∃ x ∈ a.queue, x.peer = e ∧ x.number = n
  apart : a.queue.Pairwise fun x y => x.peer ≠ y.peer ∧ x.number ≠ y.number
  sizes : a.index.length = a.queue.length
  armed : ∀ e, a.armed e = (m.mark? e).isSome
  deadline : ∀ e, a.deadline? e = (m.mark? e).map Mark.time
  size : m.endpoints.encard = a.size
  next : ∀ t, a.next? = some t ↔
    (∃ e n, m.mark? e = some n ∧ n.time = t) ∧ ∀ e n, m.mark? e = some n → t ≤ n.time
  none : a.next? = none ↔ ∀ e, m.mark? e = none
  fresh : ∀ e n, m.mark? e = some n → n.stamp < m.stamp
  answers : ∀ c, m.Answers c (a.call c).2
  rest : ∀ now e, (a.expire now).2.deadline? e =
    if e ∈ (a.expire now).1 then Option.none else a.deadline? e
  /-- No deadline comes that was cancelled or replaced. -/
  standing : ∀ now, ∀ e ∈ (a.expire now).1, ∃ t, standing? e calls = some t ∧ t ≤ now
  twice : ∀ t u, t ≤ u → (a.expire t).1 ++ ((a.expire t).2.expire u).1 = (a.expire u).1 ∧
    ((a.expire t).2.expire u).2 = (a.expire u).2

/-- Whatever is asked of the alarms, in whatever order, the queue and the index stay one to one, and
together they are a finite map with stamps. -/
theorem run_as_map (calls : List Call) : AsMap calls (run {} calls) (Agenda.run {} calls) := by
  let d : Deadlines := Deadlines.run ∅ calls
  have h : Agenda.Shown (Agenda.run {} calls) d := Agenda.Shown.empty.run calls
  exact {
    both := fun e n => d.tied.lookup_eq_some_iff
    apart := d.tied.peers.and d.tied.numbers
    sizes := d.tied.index.length_eq.trans (List.length_map _)
    armed := h.armed_eq
    deadline := h.deadline?
    size := h.encard_endpoints
    next := fun _ => h.next?_eq_some_iff
    none := h.next?_eq_none_iff
    fresh := h.fresh
    answers := fun c => (h.call c).2
    rest := fun now e => by
      split
      · rename_i he
        exact Deadlines.deadline?_expire_of_mem (d := d) he
      · rename_i he
        exact Deadlines.deadline?_expire (d := d) he
    standing := fun now e he => by
      obtain ⟨m, hm, hle⟩ := ((h.due now).mem e).1 he
      exact ⟨m.time, standing?_of_mark? hm, hle⟩
    twice := fun _ _ hle => expire_expire _ hle }

end Alarms
end Tftp
