import Tftp.Proofs.Server.Consistent
import Tftp.Proofs.Server.Untouched
import Tftp.Proofs.Transfer.Alike

/-!
Peers do not interfere. Two servers that show the same of a peer still do so after an event that
concerns the peer, and send it the same packets. So a run can be cut down to the events that concern
one peer, and the peer notices nothing.
-/

namespace Tftp
namespace Server

variable {σ η ω : Type}

/-- The transfer of a peer, with the look of its file, and its deadline. -/
def seen (look : η → σ → ω) (q : Endpoint) (s : Server σ η) :
    Option (Transfer ω) × Option Time :=
  ((s.table.find? q).map (·.seen look s.store), s.timers.deadline? q)

theorem seen_adopt_self {look : η → σ → ω} {s : Server σ η} {q : Endpoint} {t : Transfer η}
    (hf : s.table.find? q = some t) (step : Step σ η) (now : Time) :
    (s.adopt q step now).seen look q =
      seenAfter step.action (step.transfer.seen look step.store) (s.timers.deadline? q) now := by
  obtain ⟨hfind, hdeadline⟩ := Prod.mk.inj (held_adopt_self hf step now)
  have hstore : (s.adopt q step now).store = step.store := store_settle _
  unfold seen
  rw [hfind, hdeadline, hstore]
  cases step.action <;> rfl

variable [Storage σ η] {I : List η → σ → Prop} {look : η → σ → ω} {limit limit' : Nat}
  {due due' : List Endpoint} {s s' : Server σ η} {q : Endpoint} {now : Time}

/-- The peer has a transfer whenever an event comes that concerns it. -/
def Lasts (q : Endpoint) (s : Server σ η) : List Event → Prop
  | [] => True
  | e :: es => (e.concerns q → s.table.find? q ≠ none) ∧ Lasts q (s.step e).1 es

instance decidableLasts (q : Endpoint) :
    (events : List Event) → (s : Server σ η) → Decidable (Lasts q s events)
  | [], _ => .isTrue trivial
  | e :: es, s =>
    have := decidableLasts q es (s.step e).1
    inferInstanceAs (Decidable ((e.concerns q → s.table.find? q ≠ none) ∧ Lasts q (s.step e).1 es))

theorem Sound.file {ready : σ → Prop} {named : Bytes → Prop} (k : Storage.Kept ready named I)
    (h : Sound I limit due s) {t : Transfer η} (hq : s.table.find? q = some t) :
    ∃ file, t = t.onFile file ∧ I (file :: (s.table.erase q).files) s.store := by
  obtain ⟨file, hp⟩ := (h.filed _ (TransferTable.mem_of_find? hq)).running.phase
  exact ⟨file, (Transfer.onFile_of_phase hp).symm, h.kept_file k hq hp⟩

theorem Sound.seen_eq (k : Storage.Independent I look) (h : Sound I limit due s)
    (hu : Untouched q s s') : s'.seen look q = s.seen look q := by
  obtain ⟨hfind, hdeadline⟩ := Prod.mk.inj hu.held
  unfold seen
  rw [hfind, hdeadline]
  cases hq : s.table.find? q with
  | none => rfl
  | some t =>
    obtain ⟨file, ht, hi⟩ := h.file k.kept hq
    obtain ⟨_, hlook⟩ := hu.others (k.beside file (look file s.store)) ⟨hi, rfl⟩
    rw [Option.map_some, Option.map_some, ht, t.seen_onFile hlook]

theorem Sound.alike_react (k : Storage.Independent I look) (h : Sound I limit due s)
    (h' : Sound I limit' due' s') {t t' : Transfer η} (hq : s.table.find? q = some t)
    (hq' : s'.table.find? q = some t') (hseen : s.seen look q = s'.seen look q)
    (event : Transfer.Event) (now : Time) :
    (t.react s.store event).Alike look (t'.react s'.store event) ∧
      (s.adopt q (t.react s.store event) now).seen look q =
        (s'.adopt q (t'.react s'.store event) now).seen look q := by
  obtain ⟨file, ht, hi⟩ := h.file k.kept hq
  obtain ⟨file', ht', hi'⟩ := h'.file k.kept hq'
  obtain ⟨hview, hdeadline⟩ := Prod.mk.inj hseen
  rw [hq, hq', Option.map_some, Option.map_some, Option.some.injEq, ht] at hview
  obtain ⟨file'', hu, hlook⟩ := Transfer.of_seen_onFile hview
  have hfile : file'' = file' := by
    rw [ht'] at hu
    exact (Phase.transferring.inj (congrArg Transfer.phase hu)).symm
  subst hfile
  have halike : (t.react s.store event).Alike look (t'.react s'.store event) := by
    rw [ht, hu]
    exact Transfer.alike_react k hi hi' hlook t event
  refine ⟨halike, ?_⟩
  rw [seen_adopt_self hq, seen_adopt_self hq', halike.action, halike.seen, hdeadline]

omit [Storage σ η] in
theorem find?_eq_none_iff_of_seen (h : s.seen look q = s'.seen look q) :
    s.table.find? q = none ↔ s'.table.find? q = none := by
  have hm : (s.table.find? q).map (·.seen look s.store) =
      (s'.table.find? q).map (·.seen look s'.store) := congrArg Prod.fst h
  rw [← Option.map_eq_none_iff, hm, Option.map_eq_none_iff]

theorem Sound.alike_route (k : Storage.Independent I look) (h : Sound I limit due s)
    (h' : Sound I limit' due' s') (hseen : s.seen look q = s'.seen look q)
    (hq : s.table.find? q ≠ none) (p : Packet) (now : Time) :
    (s.route q p now).action = (s'.route q p now).action ∧
      (s.route q p now).server.seen look q = (s'.route q p now).server.seen look q := by
  obtain ⟨t, ht⟩ := Option.ne_none_iff_exists'.1 hq
  obtain ⟨t', ht'⟩ := Option.ne_none_iff_exists'.1 (mt (find?_eq_none_iff_of_seen hseen).2 hq)
  have key := fun event => h.alike_react k h' ht ht' hseen event now
  unfold Server.route
  rw [ht, ht']
  cases p with
  | request d r => exact ⟨rfl, hseen⟩
  | ack block => exact ⟨(key (.ack block)).1.action, (key (.ack block)).2⟩
  | data block payload => exact ⟨(key (.data block payload)).1.action, (key (.data block payload)).2⟩
  | error code message => exact ⟨(key (.error code message)).1.action, (key (.error code message)).2⟩
  | optionAck options => exact ⟨(key (.illegal _)).1.action, (key (.illegal _)).2⟩

theorem Sound.alike_retry (k : Storage.Independent I look) (h : Sound I limit due s)
    (h' : Sound I limit' due' s') (hseen : s.seen look q = s'.seen look q) (link : Link)
    (now : Time) :
    (s.retry link now q).1.seen look q = (s'.retry link now q).1.seen look q ∧
      (s.retry link now q).2.packetsTo q = (s'.retry link now q).2.packetsTo q := by
  have hnone := find?_eq_none_iff_of_seen hseen
  unfold Server.retry
  cases ht : s.table.find? q with
  | none =>
    rw [hnone.1 ht]
    exact ⟨hseen, rfl⟩
  | some t =>
    have hq' : s'.table.find? q ≠ none := mt hnone.2 (by simp [ht])
    obtain ⟨t', ht'⟩ := Option.ne_none_iff_exists'.1 hq'
    obtain ⟨halike, hadopt⟩ := h.alike_react k h' ht ht' hseen .timeout now
    rw [ht']
    refine ⟨hadopt, ?_⟩
    have ha : (t.onTimeout s.store).action = (t'.onTimeout s'.store).action := halike.action
    dsimp only
    rw [packetsTo_append, packetsTo_append, packetsTo_deliver, packetsTo_deliver, ha]
    rfl

theorem Sound.alike_expire (k : Storage.Independent I look) (h : Sound I limit [] s)
    (h' : Sound I limit' [] s') (hseen : s.seen look q = s'.seen look q) (link : Link) :
    (s.expire link now).1.seen look q = (s'.expire link now).1.seen look q ∧
      (s.expire link now).2.packetsTo q = (s'.expire link now).2.packetsTo q := by
  obtain ⟨hview, hdeadline⟩ := Prod.mk.inj hseen
  have hdue : q ∈ (s.timers.expire now).1 ↔ q ∈ (s'.timers.expire now).1 := by
    rw [Deadlines.mem_expire, Deadlines.mem_expire, hdeadline]
  by_cases hq : q ∈ (s.timers.expire now).1
  · have ht := h.taken now
    have ht' := h'.taken now
    -- the peer's timer is taken out on both sides, so the peer is shown in the same way after that
    have hleft : ({ s with timers := (s.timers.expire now).2 } : Server σ η).seen look q =
        ({ s' with timers := (s'.timers.expire now).2 } : Server σ η).seen look q := by
      have hnone := (Prod.mk.inj (held_taken_of_mem hq)).2
      have hnone' := (Prod.mk.inj (held_taken_of_mem (hdue.1 hq))).2
      exact Prod.ext hview (hnone.trans hnone'.symm)
    obtain ⟨m, _, hm, hbefore, hafter, hsent⟩ := ht.turn k.kept hq link
    obtain ⟨m', _, hm', hbefore', hafter', hsent'⟩ := ht'.turn k.kept (hdue.1 hq) link
    have hturn := (ht.seen_eq k hbefore).trans (hleft.trans (ht'.seen_eq k hbefore').symm)
    obtain ⟨hretry, hpackets⟩ := hm.alike_retry k hm' hturn link now
    have hend := (hm.retry k.kept link).seen_eq k hafter
    have hend' := (hm'.retry k.kept link).seen_eq k hafter'
    exact ⟨hend.trans (hretry.trans hend'.symm), hsent.trans (hpackets.trans hsent'.symm)⟩
  · obtain ⟨hafter, hsent⟩ := h.untouched_expire k.kept hq link
    obtain ⟨hafter', hsent'⟩ := h'.untouched_expire k.kept (mt hdue.2 hq) link
    exact ⟨(h.seen_eq k hafter).trans (hseen.trans (h'.seen_eq k hafter').symm),
      hsent.trans hsent'.symm⟩

theorem Sound.alike_step (k : Storage.Independent I look) (h : Sound I limit [] s)
    (h' : Sound I limit' [] s') (hseen : s.seen look q = s'.seen look q) {event : Event}
    (he : event.concerns q) (hq : s.table.find? q ≠ none) :
    (s.step event).1.seen look q = (s'.step event).1.seen look q ∧
      (s.step event).2.packetsTo q = (s'.step event).2.packetsTo q := by
  cases event with
  | datagram link peer bytes now =>
    cases of_decide_eq_true he
    change (s.receive link q bytes now).1.seen look q = (s'.receive link q bytes now).1.seen look q ∧
      (s.receive link q bytes now).2.packetsTo q = (s'.receive link q bytes now).2.packetsTo q
    unfold receive
    split
    · exact ⟨hseen, rfl⟩
    · rename_i p _
      obtain ⟨haction, hafter⟩ := h.alike_route k h' hseen hq p now
      refine ⟨hafter, ?_⟩
      rw [packetsTo_append, packetsTo_append, packetsTo_deliver, packetsTo_deliver, haction]
      rfl
  | packet peer p now =>
    cases of_decide_eq_true he
    exact ⟨(h.alike_route k h' hseen hq p now).2, rfl⟩
  | expiry link now => exact h.alike_expire k h' hseen link
  | shutdown => exact ⟨rfl, rfl⟩

theorem Sound.isolated (k : Storage.Independent I look) (h : Sound I limit [] s)
    (h' : Sound I limit' [] s') (hseen : s.seen look q = s'.seen look q) (events : List Event) :
    (Lasts q s events ↔ Lasts q s' (events.filter (·.concerns q))) ∧
      (Lasts q s events →
        (s.run events).1.seen look q = (s'.run (events.filter (·.concerns q))).1.seen look q ∧
        (s.run events).2.packetsTo q =
          (s'.run (events.filter (·.concerns q))).2.packetsTo q) := by
  induction events generalizing s s' with
  | nil => exact ⟨Iff.rfl, fun _ => ⟨hseen, rfl⟩⟩
  | cons event events ih =>
    have hnext := h.step k.kept trivial event.named_trivial
    by_cases he : event.concerns q
    · have hnext' := h'.step k.kept trivial event.named_trivial
      rw [List.filter_cons_of_pos he]
      have hnone := find?_eq_none_iff_of_seen hseen
      by_cases hq : s.table.find? q = none
      · exact ⟨⟨fun hl => absurd hq (hl.1 he), fun hl => absurd (hnone.1 hq) (hl.1 he)⟩,
          fun hl => absurd hq (hl.1 he)⟩
      · obtain ⟨hafter, hsent⟩ := h.alike_step k h' hseen he hq
        obtain ⟨hlasts, hrun⟩ := ih hnext hnext' hafter
        refine ⟨and_congr ⟨fun _ _ => mt hnone.2 hq, fun _ _ => hq⟩ hlasts, fun hl => ?_⟩
        obtain ⟨hend, hpackets⟩ := hrun hl.2
        refine ⟨hend, ?_⟩
        rw [Server.run, Server.run, packetsTo_append, packetsTo_append, hsent, hpackets]
    · obtain ⟨hafter, hsent⟩ := h.untouched_step he
      rw [List.filter_cons_of_neg he]
      obtain ⟨hlasts, hrun⟩ := ih hnext h' ((h.seen_eq k hafter).trans hseen)
      refine ⟨(and_iff_right fun hc => absurd hc he).trans hlasts, fun hl => ?_⟩
      obtain ⟨hend, hpackets⟩ := hrun hl.2
      refine ⟨hend, ?_⟩
      rw [Server.run, packetsTo_append, hsent, hpackets, List.nil_append]

/-- As long as a peer has a transfer, it does not matter what other peers send: the packets for the
peer, its transfer and its deadline are the same as if the others had been silent, and its transfer
ends with the same event. -/
theorem isolation (k : Storage.Independent I look) {store : σ} (start : I [] store)
    (limits : Limits) (capacity : Nat) (before events : List Event) (q : Endpoint) :
    let s := ((new store limits capacity).run before).1
    let alone := events.filter (·.concerns q)
    (Lasts q s events ↔ Lasts q s alone) ∧
      (Lasts q s events →
        (s.run events).1.seen look q = (s.run alone).1.seen look q ∧
        (s.run events).2.packetsTo q = (s.run alone).2.packetsTo q) := by
  have hnew : Sound I capacity [] (new store limits capacity) := .new start
  have hs : Sound I capacity [] ((new store limits capacity).run before).1 :=
    hnew.run k.kept (fun _ _ => trivial) fun e _ => e.named_trivial
  exact hs.isolated k hs rfl events

theorem isolation_rival_upload :
    let store : Memory.Files := Memory.Files.put (ascii "f")
      { content := some [0, 1, 2, 3, 4, 5, 6, 7, 8, 9] } []
    let q : Endpoint := ⟨2130706433, 4000⟩
    let before := [fromPort 4000
      (.request .read ⟨ascii "f", octetMode, [⟨ascii "blksize", ascii "8"⟩]⟩) 0]
    let events := [fromPort 4001 (.request .write ⟨ascii "f", octetMode, []⟩) 1,
      fromPort 4000 (.ack 0) 2, fromPort 4001 (.data 1 [66]) 3, fromPort 4002 (.ack 9) 4,
      .expiry (fun _ _ => true) (.seconds 6), fromPort 4000 (.ack 1) (.seconds 7),
      fromPort 4001 (.ack 1) (.seconds 8)]
    let s := ((new store {} 2).run before).1
    let alone := events.filter (·.concerns q)
    Memory.Faultless store ∧ Lasts q s events ∧ alone.length = 3 ∧
      (s.run events).1.seen (fun file _ => file) q = (s.run alone).1.seen (fun file _ => file) q ∧
      (s.run events).2.packetsTo q = (s.run alone).2.packetsTo q ∧
      (s.run events).2.packetsTo q = [Packet.bytes (.data 1 [0, 1, 2, 3, 4, 5, 6, 7]),
        Packet.bytes (.data 1 [0, 1, 2, 3, 4, 5, 6, 7]), Packet.bytes (.data 2 [8, 9])] := by
  intro store q before events s alone
  have hstore : Memory.Faultless store :=
    Memory.Faultless.put (fun _ => ⟨rfl, rfl, rfl⟩) rfl rfl rfl
  have hlasts : Lasts q s events := by decide +kernel
  obtain ⟨hseen, hsent⟩ :=
    (isolation Memory.independent hstore {} 2 before events q).2 hlasts
  exact ⟨hstore, hlasts, by decide +kernel, hseen, hsent, by decide +kernel⟩

end Server
end Tftp
