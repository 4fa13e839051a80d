import Mathlib.Data.List.Induction
import Tftp.Proofs.Server.Image
import Tftp.Proofs.Server.Replies
import Tftp.Proofs.Transfer.Latest
import Tftp.Proofs.Transfer.Sendable

namespace Tftp

open Packet (bytes)

/-- The last packet of a transfer as its peer knows it: it was sent, and if it offers options, no
block has been sent. -/
structure Transfer.Heard {η : Type} (t : Transfer η) (said : List Bytes) : Prop where
  last : t.lastPacket ∈ said
  unsent : ∀ options, t.lastPacket = bytes (.optionAck options) →
    ∀ packet ∈ said, ∀ block payload, packet ≠ bytes (.data block payload)

namespace Server

variable {σ η : Type} [Storage σ η]

section

variable {s : Server σ η} {q : Endpoint} {now : Time} {link : Link} {x : Endpoint × Bytes}

theorem sendable_busy : Sendable busy := sendable_error _ (by decide) (by decide)

omit [Storage σ η] in
theorem sendable_deliver {a : Action} (h : a.packet ≠ [] → Sendable a.packet)
    (hx : x ∈ (deliver link q a).sent) : Sendable x.2 := by
  rw [sent_deliver] at hx
  obtain ⟨packet, hp, rfl⟩ := List.mem_map.1 hx
  obtain ⟨hne, rfl⟩ := Action.mem_packets hp
  exact h hne

variable (modest : Storage.Modest σ)

include modest

theorem sendable_openTransfer (d : Direction) (r : Request)
    (hne : (s.openTransfer q d r now).action.packet ≠ []) :
    Sendable (s.openTransfer q d r now).action.packet := by
  revert hne
  unfold openTransfer
  split
  · exact fun _ => sendable_busy
  · split
    · exact fun _ => sendable_code _
    · rename_i file store ho
      have hnew := (Transfer.lasting_spoken modest).new q r.options s.limits ho
      have hstart := (hnew.start modest store).packet
      dsimp only
      split
      · rename_i packet ha
        split
        · rwa [ha] at hstart
        · exact fun _ => sendable_busy
      · exact hstart

theorem sendable_route (h : s.Every Transfer.Spoken) (p : Packet)
    (hne : (s.route q p now).action.packet ≠ []) : Sendable (s.route q p now).action.packet := by
  revert hne
  unfold route
  split
  · exact fun _ => sendable_code .illegalOperation
  · rename_i p _ _ t hf hp
    obtain ⟨event, hevent⟩ := dispatch_eq_react (σ := σ) (η := η) hp
    rw [hevent]
    exact ((h _ (TransferTable.mem_of_find? hf)).react modest s.store event).packet
  · exact sendable_openTransfer modest _ _
  · exact fun hne => absurd rfl hne

theorem sendable_retryAll (h : s.Every Transfer.Spoken) (due : List Endpoint)
    (hx : x ∈ (s.retryAll link now due).2.sent) : Sendable x.2 := by
  induction due generalizing s with
  | nil => cases hx
  | cons e due ih =>
    rcases List.mem_append.1 hx with hx | hx
    · dsimp only [retry] at hx
      split at hx
      · cases hx
      · rename_i t hf
        have ht := h _ (TransferTable.mem_of_find? hf)
        change x ∈ (deliver link e (t.onTimeout s.store).action).sent at hx
        exact sendable_deliver (ht.onTimeout s.store).packet hx
    · exact ih (h.retry (Transfer.lasting_spoken modest) link) hx

theorem sendable_step (h : s.Every Transfer.Spoken) (event : Event)
    (hx : x ∈ (s.step event).2.sent) : Sendable x.2 := by
  cases event with
  | datagram link peer bytes now =>
    change x ∈ (s.receive link peer bytes now).2.sent at hx
    unfold receive at hx
    split at hx
    · cases hx
    · rename_i p _
      change x ∈ (deliver link peer (s.route peer p now).action).sent at hx
      exact sendable_deliver (sendable_route modest h p) hx
  | packet | shutdown => cases hx
  | expiry link now =>
    exact sendable_retryAll (s := { s with timers := (s.timers.expire now).2 }) modest h _ hx

theorem sendable_run (h : s.Every Transfer.Spoken) (events : List Event)
    (hx : x ∈ (s.run events).2.sent) : Sendable x.2 := by
  induction events generalizing s with
  | nil => cases hx
  | cons event events ih =>
    rcases List.mem_append.1 hx with hx | hx
    · exact sendable_step modest h event hx
    · exact ih (h.step (Transfer.lasting_spoken modest) event) hx

end

/-- The packets that a peer was sent since its transfer began, if it had heard some before. -/
def said (q : Endpoint) : List Bytes → Server σ η → List Event → List Bytes
  | heard, _, [] => heard
  | heard, s, event :: events =>
    said q ((if s.table.find? q = none then [] else heard) ++ s.replies q event)
      (s.step event).1 events

variable {I : List η → σ → Prop} {limit : Nat} {s : Server σ η} {q : Endpoint} {event : Event}
  {t : Transfer η}

theorem said_concat (q : Endpoint) (heard : List Bytes) (s : Server σ η) (events : List Event)
    (event : Event) : said q heard s (events ++ [event]) =
      (if (s.run events).1.table.find? q = none then [] else said q heard s events) ++
        (s.run events).1.replies q event := by
  induction events generalizing s heard with
  | nil => rfl
  | cons e events ih => exact ih _ _

theorem said_concat_of_some {events : List Event}
    (ht : (s.run events).1.table.find? q = some t) (heard : List Bytes) (event : Event) :
    said q heard s (events ++ [event]) =
      said q heard s events ++ (s.run events).1.replies q event := by
  rw [said_concat, if_neg (Option.ne_none_iff_exists'.2 ⟨t, ht⟩)]

theorem replies_active (h : event.Asks q) (hq : s.table.find? q = some t) :
    s.replies q event = [bytes (.error .illegalOperation (ascii "illegal operation"))] := by
  cases event with
  | datagram link peer d now =>
    obtain ⟨rfl, direction, r, hd⟩ := h
    have hsent := (receive_of_decode (q := peer) s link hd now).2
    rw [route_active hq] at hsent
    change (s.receive link peer d now).2.packetsTo peer = _
    rw [Effects.packetsTo, hsent]
    simp [Action.packets, Action.packet]
  | packet peer p now =>
    obtain ⟨rfl, direction, r, rfl⟩ := h
    rw [replies, if_pos rfl, route_active hq]
    simp [Action.packets, Action.packet]
  | expiry | shutdown => exact h.elim

theorem Sound.heard (k : Storage.Kept (fun _ => True) (fun _ => True) I) (h : Sound I limit [] s)
    (hq : s.table.find? q = none) (events : List Event)
    (ht : (s.run events).1.table.find? q = some t) : t.Heard (said q [] s events) := by
  induction events using List.reverseRecOn generalizing t with
  | nil => cases hq.symm.trans ht
  | append_singleton events event ih =>
    have hs := h.run_always k events
    rw [run_concat] at ht
    cases hs.fate k q event with
    | unheeded held sent =>
      have hfind := (congrArg Prod.fst held).symm.trans ht
      rw [said_concat_of_some hfind, sent, List.append_nil]
      exact ih hfind
    | refused asks held =>
      have hfind := (congrArg Prod.fst held).symm.trans ht
      have hu := ih hfind
      rw [said_concat_of_some hfind, replies_active asks hfind]
      refine ⟨List.mem_append_left _ hu.last, fun options hoffer => ?_⟩
      refine List.forall_mem_append.2 ⟨hu.unsent options hoffer, List.forall_mem_singleton.2 ?_⟩
      exact Transfer.ne_data_of_opcode (by simp [Packet.opcode])
    | opened now d r file store packet time asks found action held sent =>
      cases (congrArg Prod.fst held).symm.trans ht
      have hlast := (Transfer.opening_start rfl store).lastPacket action
      rw [said_concat, if_pos found, sent, List.nil_append]
      refine ⟨List.mem_singleton.2 hlast, fun options hoffer => List.forall_mem_singleton.2 ?_⟩
      rw [hlast.symm.trans hoffer]
      exact Transfer.ne_data_of_opcode (by simp [Packet.opcode])
    | reacted now u file store reaction packet time meaning found phase action held sent =>
      cases (congrArg Prod.fst held).symm.trans ht
      have hu := ih found
      obtain ⟨hlast, hsame⟩ := (Transfer.course_react phase store reaction).lastPacket action
      rw [said_concat_of_some found, sent]
      refine ⟨List.mem_append_right _ (List.mem_singleton.2 hlast), fun options hoffer => ?_⟩
      -- a transfer that still offers its options has offered them before
      have hpacket : packet = bytes (.optionAck options) := hlast.symm.trans hoffer
      have hold := hsame.resolve_right fun hno => hno options hpacket
      refine List.forall_mem_append.2
        ⟨hu.unsent options (hold.symm.trans hpacket), List.forall_mem_singleton.2 ?_⟩
      rw [hpacket]
      exact Transfer.ne_data_of_opcode (by simp [Packet.opcode])
    | ended held => cases (congrArg Prod.fst held).symm.trans ht

def journaled (store : σ) (limits : Limits) (capacity : Nat) (events : List Event) :
    Server (Journal σ) (Draft η) :=
  ((new { store := store } limits capacity).run events).1

theorem map_journaled (store : σ) (limits : Limits) (capacity : Nat) (events : List Event) :
    (journaled store limits capacity events).map Draft.file Journal.store =
      ((new store limits capacity : Server σ η).run events).1 :=
  congrArg Prod.fst
    (run_map Journal.image (new ({ store := store } : Journal σ) limits capacity) events).symm

theorem latest_journaled (modest : Storage.Modest σ) (store : σ) (limits : Limits) (capacity : Nat)
    (events : List Event) {u : Transfer (Draft η)}
    (hu : (journaled store limits capacity events).table.find? q = some u) :
    ∃ draft, u.phase = .transferring draft ∧ u.Latest draft.blocks := by
  let first : Server (Journal σ) (Draft η) := new { store := store } limits capacity
  have hempty : first.Every Transfer.Abreast := fun _ hf => absurd hf List.not_mem_nil
  have habreast : u.Abreast := hempty.run (Transfer.lasting_abreast modest) events _
    (TransferTable.mem_of_find? hu)
  have hfirst : Sound (fun (_ : List (Draft η)) (_ : Journal σ) => True) capacity [] first :=
    .new trivial
  have hfiled : Filed q u := (hfirst.run_always (Storage.Kept.always _ _) events).filed _
    (TransferTable.mem_of_find? hu)
  obtain ⟨draft, hp⟩ := hfiled.running.phase
  cases habreast with
  | waiting _ phase => cases hp.symm.trans phase
  | running draft phase latest => exact ⟨draft, phase, latest⟩
  | ended phase => simp [hp, Phase.file?] at phase

/-- Whatever is sent can be read, is no request and fits a datagram, and what would be sent again is
current. The last packet of each transfer in the table was sent to its peer; it is the latest block
of a reader or the latest acknowledgement of a writer, or the options that were accepted, as long as
no block was sent and none was stored. -/
theorem packets_current (modest : Storage.Modest σ) (store : σ) (limits : Limits) (capacity : Nat)
    (events : List Event) :
    (∀ x ∈ ((new store limits capacity).run events).2.sent, Sendable x.2) ∧
    ∀ q (t : Transfer η), ((new store limits capacity).run events).1.table.find? q = some t →
      t.Heard (said q [] (new store limits capacity) events) ∧
      ∃ u draft, (journaled store limits capacity events).table.find? q = some u ∧
        t = u.map Draft.file ∧ u.phase = .transferring draft ∧ t.Latest draft.blocks := by
  have hspoken : (new store limits capacity : Server σ η).Every Transfer.Spoken :=
    fun _ hf => absurd hf List.not_mem_nil
  refine ⟨fun x hx => sendable_run modest hspoken events hx, fun q t ht => ?_⟩
  have hfirst : Sound (fun (_ : List η) (_ : σ) => True) capacity [] (new store limits capacity) :=
    .new trivial
  refine ⟨hfirst.heard (Storage.Kept.always σ η) rfl events ht, ?_⟩
  rw [← map_journaled, map_table, TransferTable.find?_map, Option.map_eq_some_iff] at ht
  obtain ⟨u, hu, rfl⟩ := ht
  obtain ⟨draft, hp, hlatest⟩ := latest_journaled modest store limits capacity events hu
  exact ⟨u, draft, hu, rfl, hp, hlatest.map Draft.file⟩

theorem packets_current_two_late :
    let content : Bytes := [0, 1, 2, 3, 4, 5, 6, 7, 8, 9]
    let store : Memory.Files := Memory.Files.put (ascii "f") { content := some content } []
    let q : Endpoint := ⟨2130706433, 4000⟩
    let blksize : OptionField := ⟨ascii "blksize", ascii "8"⟩
    let events := [fromPort 4000 (.request .read ⟨ascii "f", octetMode, [blksize]⟩) 0,
      fromPort 4001 (.request .write ⟨ascii "g", octetMode, [blksize]⟩) 1,
      fromPort 4000 (.ack 0) 2, .expiry (fun _ _ => true) (.seconds 6)]
    Storage.Modest Memory.Files ∧ ((new store {} 2).run events).2.sent.length = 5 ∧
    (∀ x ∈ ((new store {} 2).run events).2.sent, Sendable x.2) ∧
    ∃ t, ((new store {} 2).run events).1.table.find? q = some t ∧
      t.lastPacket = bytes (.data 1 [0, 1, 2, 3, 4, 5, 6, 7]) ∧
      t.Heard (said q [] (new store {} 2) events) ∧
      ∃ u draft, (journaled store {} 2 events).table.find? q = some u ∧
        t = u.map Draft.file ∧ u.phase = .transferring draft ∧ t.Latest draft.blocks := by
  intro content store q blksize events
  obtain ⟨hsent, hkept⟩ := packets_current Memory.modest store {} 2 events
  have hlast : (((new store {} 2).run events).1.table.find? q).map (·.lastPacket) =
      some (bytes (.data 1 [0, 1, 2, 3, 4, 5, 6, 7])) := by decide +kernel
  have hfive : ((new store {} 2).run events).2.sent.length = 5 := by decide +kernel
  obtain ⟨t, ht, hpacket⟩ := Option.map_eq_some_iff.1 hlast
  exact ⟨Memory.modest, hfive, hsent, t, ht, hpacket, hkept q t ht⟩

end Server
end Tftp
