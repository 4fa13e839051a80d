import Tftp.Proofs.Server.Sound
import Tftp.Proofs.Transfer.Lines

namespace Tftp

open Log

def Packet.Clean : Packet → Prop
  | .request _ r => 10 ∉ r.filename
  | .error _ message => 10 ∉ message
  | _ => True

theorem Accepted.offerAll_debug (a : Accepted) (os : List OptionField) :
    ∀ e ∈ (a.offerAll os).2, e.level = .debug := by
  induction os generalizing a with
  | nil => nofun
  | cons o os ih =>
    have hoffer : ∀ e ∈ (a.offer o).2, e.level = .debug := by
      intro e he
      unfold offer at he
      dsimp only at he
      split at he
      · rw [List.mem_singleton.1 he]
      · split at he
        · cases he
        · split at he
          · rw [List.mem_singleton.1 he]
          · cases he
    exact List.forall_mem_append.2 ⟨hoffer, ih _⟩

namespace Server

variable {σ η : Type} [Storage σ η] {J : η → σ → Prop} {clean : Prop} {other : Log.Entry → Prop}
  {s : Server σ η} {peer : Endpoint} {now : Time}

/-- What is asked of a request: a file that is opened is within `J`, and a refusal says nothing with
a line break in it if the request is `clean`. -/
structure Answers (J : η → σ → Prop) (clean : Prop) (d : Direction) (name : Bytes) (store : σ) :
    Prop where
  opened {file : η} {store' : σ} : openFile d name store = (.ok file, store') → J file store'
  refused {e : StorageError} {store' : σ} : openFile d name store = (.error e, store') →
    clean → 10 ∉ e.message

structure Carries (J : η → σ → Prop) (clean : Prop) (peer : Endpoint) (t : Transfer η) (store : σ) :
    Prop where
  peer : t.peer = peer
  name : clean → 10 ∉ t.filename
  file : ∀ file ∈ t.phase.file?, J file store

theorem tells_deliver (link : Link) (peer : Endpoint) (a : Action) :
    Tells peer clean other (deliver link peer a).log := by
  unfold deliver
  split
  · exact .nil
  · dsimp only
    split
    · exact .nil
    · exact .cons (told_note fun _ => by decide) .nil

variable (k : Storage.Terse σ J clean other)

include k

theorem tells_openTransfer {d : Direction} {r : Request} (hnone : s.table.find? peer = none)
    (hr : clean → 10 ∉ r.filename) (h : Answers J clean d r.filename s.store) :
    Tells peer clean other (s.openTransfer peer d r now).log := by
  unfold openTransfer
  split
  · refine .cons (told_note fun _ => ?_) .nil
    have hcount := decimal_clean s.table.size
    have hwords : 10 ∉ ascii "rejecting request, " ∧ 10 ∉ ascii " sessions active" := by decide
    simp [hcount, hwords]
  · rename_i hroom
    split
    · rename_i ho
      exact .cons (told_note (h.refused ho)) .nil
    · rename_i file store ho
      let t := Transfer.new peer d r.filename file (negotiate r.options).1 s.limits
      have hlog : Tells peer clean other ((negotiate r.options).2 ++ (t.start store).log) := by
        refine .append (fun e he => .inl (Accepted.offerAll_debug _ _ e he)) ?_
        refine Transfer.tells_start (t := t) k hr fun f hf => ?_
        cases hf
        exact h.opened ho
      dsimp only
      split
      · split
        · exact hlog
        · rename_i hi
          -- there is room, and the peer has no transfer yet
          have hpeer : (t.start store).transfer.peer = peer :=
            congrArg Transfer.Terms.peer (Transfer.terms_start t store)
          have hnew : (t.start store).transfer.peer ∉ s.table.endpoints := by
            rw [hpeer]
            exact TransferTable.find?_eq_none_iff.1 hnone
          have hsize := Nat.lt_of_not_le (mt decide_eq_true hroom)
          cases hi.symm.trans (TransferTable.insert?_eq_some_iff.2 ⟨hsize, hnew, rfl⟩)
      · exact hlog

theorem tells_dispatch {t : Transfer η} (h : Carries J clean peer t s.store) {p : Packet}
    (hp : clean → p.Clean) : Tells peer clean other (dispatch t s.store p).log := by
  rw [← h.peer]
  cases p with
  | request d r => exact .nil
  | ack block => exact Transfer.tells_react k h.name h.file (.ack block) fun _ => trivial
  | data block payload =>
    exact Transfer.tells_react k h.name h.file (.data block payload) fun _ => trivial
  | error code message =>
    exact Transfer.tells_react k h.name h.file (.error code message) hp
  | optionAck options =>
    have hreason : 10 ∉ ascii "OACK received from a client" := by decide
    exact Transfer.tells_react k h.name h.file (.illegal _) fun _ => hreason

theorem tells_route (hcarries : ∀ t, s.table.find? peer = some t → Carries J clean peer t s.store)
    {p : Packet} (hp : clean → p.Clean)
    (hopen : ∀ d r, p = .request d r → Answers J clean d r.filename s.store) :
    Tells peer clean other (s.route peer p now).log := by
  unfold route
  split
  · exact .cons (told_note fun _ => by decide) .nil
  · rename_i p _ _ t hf _
    exact tells_dispatch k (hcarries t hf) hp
  · rename_i d r hf
    refine .cons (told_note fun hc => ?_) (tells_openTransfer k hf hp (hopen d r rfl))
    have hname : 10 ∉ r.filename := hp hc
    have hdirection : 10 ∉ d.requestName := by
      cases d <;> decide
    have hwords : 10 ∉ ascii " for " := by decide
    simp [hname, hdirection, hwords]
  · exact .cons (told_debug ..) .nil

theorem tells_receive (hcarries : ∀ t, s.table.find? peer = some t → Carries J clean peer t s.store)
    {datagram : Bytes} (hp : ∀ p, Packet.decode datagram = .ok p → clean → p.Clean)
    (hopen : ∀ d r, Packet.decode datagram = .ok (.request d r) →
      Answers J clean d r.filename s.store) (link : Link) (now : Time) :
    Tells peer clean other (s.receive link peer datagram now).2.log := by
  unfold receive
  split
  · rename_i e _
    refine .cons (told_note fun _ => ?_) .nil
    have hlength := decimal_clean datagram.length
    have hwords : 10 ∉ ascii "dropping " ∧ 10 ∉ ascii "-byte datagram: " ∧ 10 ∉ e.name := by
      cases e <;> decide
    simp [hlength, hwords]
  · rename_i p hd
    refine .append (.cons (told_debug ..) (tells_route k hcarries (hp p hd) ?_))
      (tells_deliver link peer _)
    rintro d r rfl
    exact hopen d r hd

end Server
end Tftp
