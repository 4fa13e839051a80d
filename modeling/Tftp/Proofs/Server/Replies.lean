import Tftp.Proofs.Server.Fate

namespace Tftp

theorem Action.length_packets_le (a : Action) : a.packets.length ≤ 1 := by
  unfold packets
  split <;> simp

theorem Action.mem_packets {a : Action} {packet : Bytes} (h : packet ∈ a.packets) :
    packet ≠ [] ∧ packet = a.packet := by
  unfold packets at h
  split at h
  · cases h
  · rename_i hne
    cases List.mem_singleton.1 h
    exact ⟨by simpa using hne, rfl⟩

theorem Action.length_packets {a : Action} (h : a.packet ≠ []) : a.packets.length = 1 := by
  have hne : a.packet.isEmpty = false := by simpa using h
  simp [packets, hne]

theorem Transfer.Running.packet_onTimeout {σ η : Type} [Storage σ η] {t : Transfer η}
    (h : t.Running) (store : σ) : (t.onTimeout store).action.packet ≠ [] := by
  obtain ⟨file, hp⟩ := h.phase
  rcases Nat.lt_or_ge t.retries t.maxRetries with hr | hr
  · obtain ⟨log, hresend⟩ := onTimeout_resend hp hr store
    rw [hresend]
    exact h.lastPacket
  · obtain ⟨log, habort⟩ := onTimeout_abort hp hr store
    rw [habort]
    exact Packet.bytes_ne_nil _

namespace Server

variable {σ η : Type}

theorem sent_deliver (link : Link) (q : Endpoint) (a : Action) :
    (deliver link q a).sent = a.packets.map (q, ·) := by
  unfold deliver Action.packets
  split <;> rfl

def Event.bears (q : Endpoint) : Event → Bool
  | .datagram _ peer _ _ => peer = q
  | .packet .. | .expiry .. | .shutdown => false

structure Replied (q : Endpoint) (bytes : Bytes) (s : Server σ η) (after : Server σ η × Effects) :
    Prop where
  one : after.2.sent.length ≤ 1
  request : ∀ d r, Packet.decode bytes = .ok (.request d r) → after.2.sent.length = 1
  back : ∀ packet ∈ after.2.sent, packet.1 = q
  unread : ∀ e, Packet.decode bytes = .error e → after.1 = s ∧ after.2.sent = []
  stray : s.table.find? q = none → (∀ d r, Packet.decode bytes ≠ .ok (.request d r)) →
    after.1 = s ∧ after.2.sent = []

variable [Storage σ η] {I : List η → σ → Prop} {limit : Nat} {s : Server σ η} {q : Endpoint}
  {event : Event}

theorem receive_of_decode (s : Server σ η) (link : Link) {bytes : Bytes} {p : Packet}
    (hp : Packet.decode bytes = .ok p) (now : Time) :
    (s.receive link q bytes now).1 = (s.route q p now).server ∧
      (s.receive link q bytes now).2.sent = (s.route q p now).action.packets.map (q, ·) := by
  unfold receive
  rw [hp]
  exact ⟨rfl, (List.nil_append _).trans (sent_deliver link q _)⟩

theorem packet_openTransfer (s : Server σ η) (q : Endpoint) (d : Direction) (r : Request)
    (now : Time) : (s.openTransfer q d r now).action.packet ≠ [] := by
  unfold openTransfer
  split
  · exact Packet.bytes_ne_nil _
  · split
    · exact Packet.bytes_ne_nil _
    · rename_i file store _
      have hopening := Transfer.opening_start
        (t := Transfer.new q d r.filename file (negotiate r.options).1 s.limits) rfl store
      have hne := hopening.packet_ne_nil
      dsimp only
      split
      · rename_i packet ha
        split
        · rwa [ha] at hne
        · exact Packet.bytes_ne_nil _
      · exact hne

theorem route_active {t : Transfer η} (hq : s.table.find? q = some t) (d : Direction) (r : Request)
    (now : Time) : (s.route q (.request d r) now).action =
      .reply (Packet.bytes (.error .illegalOperation (ascii "illegal operation"))) := by
  simp only [route, hq]

theorem packet_route_request (s : Server σ η) (q : Endpoint) (d : Direction) (r : Request)
    (now : Time) : (s.route q (.request d r) now).action.packet ≠ [] := by
  cases hq : s.table.find? q with
  | none =>
    have hroute : (s.route q (.request d r) now).action = (s.openTransfer q d r now).action := by
      simp only [route, hq]
    rw [hroute]
    exact packet_openTransfer s q d r now
  | some t =>
    rw [route_active hq]
    exact Packet.bytes_ne_nil _

theorem replied (s : Server σ η) (link : Link) (q : Endpoint) (bytes : Bytes) (now : Time) :
    Replied q bytes s (s.receive link q bytes now) := by
  unfold receive
  split
  · rename_i e he
    exact {
      one := Nat.zero_le _
      request := fun d r hr => by cases he.symm.trans hr
      back := fun _ hm => absurd hm List.not_mem_nil
      unread := fun _ _ => ⟨rfl, rfl⟩
      stray := fun _ _ => ⟨rfl, rfl⟩ }
  · rename_i p hp
    have hsent : ({ log := q.note .debug (ascii "received " ++ p.summary) ::
        (s.route q p now).log } ++ deliver link q (s.route q p now).action : Effects).sent =
          (s.route q p now).action.packets.map (q, ·) :=
      (List.nil_append _).trans (sent_deliver link q _)
    dsimp only
    exact {
      one := by
        rw [hsent, List.length_map]
        exact Action.length_packets_le _
      request := fun d r hr => by
        cases hp.symm.trans hr
        rw [hsent, List.length_map]
        exact Action.length_packets (packet_route_request s q d r now)
      back := by
        rw [hsent]
        intro packet hm
        obtain ⟨_, -, rfl⟩ := List.mem_map.1 hm
        rfl
      unread := fun e he => by cases hp.symm.trans he
      stray := fun hq hr => by
        obtain ⟨hserver, haction⟩ := route_eq_of_find?_eq_none hq
          (fun d r hpr => hr d r (hpr ▸ hp)) now
        refine ⟨hserver, ?_⟩
        rw [hsent, haction]
        rfl }

theorem Sound.length_packetsTo_fire (k : Storage.Kept (fun _ => True) (fun _ => True) I)
    (h : Sound I limit [] s) (hf : event.fires q s) :
    ((s.step event).2.packetsTo q).length = 1 := by
  cases event with
  | datagram | packet | shutdown => cases hf
  | expiry link now =>
    obtain ⟨m, t, -, hrunning, -, -, -, hsent⟩ := h.turn_expire k (mem_expire_iff_fires.2 hf) link
    change ((s.expire link now).2.packetsTo q).length = 1
    rw [hsent]
    exact Action.length_packets (hrunning.packet_onTimeout m.store)

theorem Sound.length_packetsTo_step (k : Storage.Kept (fun _ => True) (fun _ => True) I)
    (h : Sound I limit [] s) (q : Endpoint) (event : Event) :
    (if event.fires q s then 1 else 0) ≤ ((s.step event).2.packetsTo q).length ∧
      ((s.step event).2.packetsTo q).length ≤
        (if event.bears q then 1 else 0) + if event.fires q s then 1 else 0 := by
  by_cases hf : event.fires q s
  · rw [if_pos hf, h.length_packetsTo_fire k hf]
    exact ⟨Nat.le_refl 1, Nat.le_add_left 1 _⟩
  · rw [if_neg hf]
    refine ⟨Nat.zero_le _, ?_⟩
    by_cases hc : event.concerns q
    · cases event with
      | datagram link peer bytes now =>
        cases of_decide_eq_true hc
        have hbears : (Event.datagram link q bytes now).bears q := decide_eq_true rfl
        rw [if_pos hbears]
        calc ((s.receive link q bytes now).2.packetsTo q).length
          _ ≤ (s.receive link q bytes now).2.sent.length := by
            rw [Effects.packetsTo, List.length_map]
            exact List.length_filter_le _ _
          _ ≤ 1 := (replied s link q bytes now).one
      | packet peer p now => exact Nat.zero_le _
      | expiry link now =>
        obtain ⟨-, hsent⟩ := h.untouched_expire k (mt mem_expire_iff_fires.1 hf) link
        change ((s.expire link now).2.packetsTo q).length ≤ _
        rw [hsent]
        exact Nat.zero_le _
      | shutdown => exact Nat.zero_le _
    · obtain ⟨-, hsent⟩ := h.untouched_step hc
      rw [hsent]
      exact Nat.zero_le _

theorem Sound.length_packetsTo_run (k : Storage.Kept (fun _ => True) (fun _ => True) I)
    (h : Sound I limit [] s) (q : Endpoint) (events : List Event) :
    fires q s events ≤ ((s.run events).2.packetsTo q).length ∧
      ((s.run events).2.packetsTo q).length ≤
        events.countP (Event.bears q) + fires q s events := by
  induction events generalizing s with
  | nil => exact ⟨Nat.le_refl 0, Nat.zero_le _⟩
  | cons event events ih =>
    have hone := h.length_packetsTo_step k q event
    have hrest := ih (h.step k trivial event.named_trivial)
    rw [run_cons, packetsTo_append, List.length_append, List.countP_cons, fires]
    omega

/-- The server answers a datagram with one packet at most, to whoever sent it, and has nothing to
say to what it cannot read or does not expect. In all, a peer is sent a packet for each of its
deadlines, and otherwise no more than one for each of its datagrams; it is sent none at all if it
never asks for a transfer. -/
theorem replies_bounded (store : σ) (limits : Limits) (capacity : Nat) (events : List Event)
    (q : Endpoint) :
    let first : Server σ η := new store limits capacity
    (∀ link bytes now,
      Replied q bytes (first.run events).1 ((first.run events).1.receive link q bytes now)) ∧
    (fires q first events ≤ ((first.run events).2.packetsTo q).length ∧
      ((first.run events).2.packetsTo q).length ≤
        events.countP (Event.bears q) + fires q first events) ∧
    ((∀ event ∈ events, ¬ event.Asks q) → (first.run events).2.packetsTo q = []) := by
  intro first
  have k := Storage.Kept.always σ η
  have hfirst : Sound (fun (_ : List η) (_ : σ) => True) capacity [] first := .new trivial
  exact ⟨fun link bytes now => replied _ link q bytes now, hfirst.length_packetsTo_run k q events,
    fun hsilent => (hfirst.silent_run k rfl hsilent).2⟩

end Server
end Tftp
