import Tftp.Proofs.Storage.Blamed
import Tftp.Proofs.Transfer.Reaction

namespace Tftp

open Recorded

def Call.Vain (n : Nat) : Call → Prop
  | opened m => m = n
  | read m got => m = n ∧ got = none
  | wrote m _ _ => m = n
  | committed m done => m = n ∧ done = false
  | released m => m = n

theorem Call.Vain.file_eq {n : Nat} {c : Call} (h : c.Vain n) : c.file = n := by
  cases c <;> first | exact h | exact h.1

variable {σ η : Type}

/-- What a step of a transfer with blocks of a size has done with file `n`: the calls it has made
since the store was `r`, and the faults that came of them. -/
structure Step.Account (size n : Nat) (r : Recorded (Blamed σ))
    (s : Step (Recorded (Blamed σ)) (Numbered η)) (calls : List Call) (faults : List StorageError) :
    Prop where
  since : Since r s.store calls faults
  own : ∀ c ∈ calls, c.file = n
  reads : ∀ m block, .read m (some block) ∈ calls → block.length ≤ size
  failed : ∀ error ∈ faults, faults = [error] ∧
    s.action = .closed (Packet.bytes (.error error.code error.code.name)) ∧ ∀ c ∈ calls, c.Vain n

def Step.Accounted (size n : Nat) (r : Recorded (Blamed σ))
    (s : Step (Recorded (Blamed σ)) (Numbered η)) : Prop :=
  ∃ calls faults, s.Account size n r calls faults

namespace Step.Accounted

variable {size n : Nat} {r r' : Recorded (Blamed σ)} {calls : List Call}
  {s : Step (Recorded (Blamed σ)) (Numbered η)}

theorem of_since (since : Since r s.store calls []) (own : ∀ c ∈ calls, c.file = n)
    (reads : ∀ m block, .read m (some block) ∈ calls → block.length ≤ size) :
    s.Accounted size n r :=
  ⟨calls, [], since, own, reads, nofun⟩

theorem of_store_eq (h : s.store = r) : s.Accounted size n r :=
  of_since (h ▸ Since.refl r : Since r s.store [] []) nofun nofun

theorem congr {s' : Step (Recorded (Blamed σ)) (Numbered η)} (h : s.Accounted size n r)
    (store : s'.store = s.store)
    (closed : ∀ packet, s.action = .closed packet → s'.action = .closed packet) :
    s'.Accounted size n r := by
  obtain ⟨calls, faults, h⟩ := h
  refine ⟨calls, faults, store ▸ h.since, h.own, h.reads, fun error he => ?_⟩
  obtain ⟨hone, haction, hvain⟩ := h.failed error he
  exact ⟨hone, closed _ haction, hvain⟩

theorem after (h : s.Accounted size n r') (since : Since r r' calls [])
    (vain : ∀ c ∈ calls, c.Vain n) : s.Accounted size n r := by
  obtain ⟨later, faults, h⟩ := h
  refine ⟨calls ++ later, faults, since.trans h.since, fun c hc => ?_, fun m block hm => ?_,
    fun error he => ?_⟩
  · rcases List.mem_append.1 hc with hc | hc
    · exact (vain c hc).file_eq
    · exact h.own c hc
  · -- none of the calls before gave a block
    rcases List.mem_append.1 hm with hm | hm
    · exact nomatch (vain _ hm).2
    · exact h.reads m block hm
  · obtain ⟨hone, haction, hlater⟩ := h.failed error he
    exact ⟨hone, haction, List.forall_mem_append.2 ⟨vain, hlater⟩⟩

variable [Storage σ η] {f : Numbered η}

theorem released (h : s.store = (Storage.release f r).2) : s.Accounted size f.number r :=
  of_since (h ▸ since_release f r) (by simp [Call.file]) (by simp)

end Step.Accounted

namespace Transfer

variable [Storage σ η] {size : Nat} {r r' : Recorded (Blamed σ)} {t : Transfer (Numbered η)}
  {f f' : Numbered η}

theorem accounted_fail {e : StorageError} {c : Call} (since : Since r r' [c] [e])
    (vain : c.Vain f.number) (hf : f'.number = f.number) :
    (t.fail f' r' e).Accounted size f.number r := by
  have hall : ∀ d ∈ [c, .released f.number], d.Vain f.number := by
    simpa [Call.Vain] using vain
  refine ⟨[c, .released f.number], [e], ?_, fun d hd => (hall d hd).file_eq,
    fun m block hm => absurd (hall _ hm).2 nofun, fun error he => ?_⟩
  · rw [← hf]
    exact since.trans (since_release f' r')
  · cases List.mem_singleton.1 he
    exact ⟨rfl, rfl, hall⟩

theorem accounted_sendNextBlock (modest : Storage.Modest σ) (t : Transfer (Numbered η))
    (f : Numbered η) (r : Recorded (Blamed σ)) :
    (t.sendNextBlock f r).Accounted t.blockSize f.number r := by
  rcases hr : Storage.read t.blockSize f r with ⟨got, f', r'⟩
  obtain ⟨since, hf⟩ := since_read hr
  cases got with
  | error e =>
    have hfail : t.sendNextBlock f r = t.fail f' r' e := by simp only [sendNextBlock, hr]
    rw [hfail]
    exact accounted_fail since ⟨rfl, rfl⟩ hf
  | ok payload =>
    have hsize : payload.length ≤ t.blockSize :=
      modest t.blockSize f.file r.store.store payload (congrArg Prod.fst hr)
    rw [sendNextBlock_ok hr]
    refine .of_since since (by simp [Call.file]) fun m block hm => ?_
    cases List.mem_singleton.1 hm
    exact hsize

theorem accounted_illegal (hp : t.phase.file? = some f) (r : Recorded (Blamed σ))
    (reason : Bytes) : (t.illegal r reason).Accounted size f.number r := by
  refine .released ?_
  simp only [illegal, hp]
  rfl

theorem accounted_onAck (modest : Storage.Modest σ) (hp : t.phase = .transferring f)
    (r : Recorded (Blamed σ)) (block : UInt16) :
    (t.onAck r block).Accounted t.blockSize f.number r := by
  cases hd : t.direction with
  | write =>
    have hillegal : t.onAck r block =
        t.illegal r (ascii "ACK received during a write transfer") := by
      simp only [onAck, hp, hd]
    rw [hillegal]
    exact accounted_illegal (by rw [hp]; rfl) r _
  | read =>
    by_cases hb : block = t.block
    · subst hb
      cases hl : t.lastBlockSent with
      | true =>
        obtain ⟨log, hlast⟩ := onAck_last hp hd hl r
        rw [hlast]
        exact .released rfl
      | false =>
        rw [onAck_next hp hd hl r]
        exact accounted_sendNextBlock modest { t with retries := 0 } f r
    · obtain ⟨log, hstale⟩ := onAck_stale hp hd hb r
      rw [hstale]
      exact .of_store_eq rfl

theorem accounted_acknowledge (t : Transfer (Numbered η)) (f : Numbered η)
    (r : Recorded (Blamed σ)) (stored : Nat) :
    (t.acknowledge f r stored).Accounted size f.number r := by
  by_cases hs : stored < t.blockSize
  · rcases hc : Storage.commit f r with ⟨done, f', r'⟩
    obtain ⟨since, hf⟩ := since_commit hc
    cases done with
    | error e =>
      have hfail : t.acknowledge f r stored = t.fail f' r' e := by
        simp only [acknowledge, hs, if_true, hc]
      rw [hfail]
      exact accounted_fail since ⟨rfl, rfl⟩ hf
    | ok _ =>
      obtain ⟨log, hdone⟩ := acknowledge_ok hs hc
      rw [hdone]
      refine .of_since (since.trans (since_release f' r')) ?_ ?_
      · simp [Call.file, hf]
      · simp
  · rw [acknowledge_full (Nat.le_of_not_lt hs)]
    exact .of_store_eq rfl

theorem accounted_onData (hp : t.phase = .transferring f) (r : Recorded (Blamed σ))
    (block : UInt16) (payload : Bytes) :
    (t.onData r block payload).Accounted size f.number r := by
  cases hd : t.direction with
  | read =>
    have hillegal : t.onData r block payload =
        t.illegal r (ascii "DATA received during a read transfer") := by
      simp only [onData, hp, hd]
    rw [hillegal]
    exact accounted_illegal (by rw [hp]; rfl) r _
  | write =>
    by_cases hb : block = t.expected
    · subst hb
      by_cases hl : payload.length ≤ t.blockSize
      · rcases hw : Storage.write payload f r with ⟨done, f', r'⟩
        obtain ⟨since, hf⟩ := since_write hw
        cases done with
        | error e =>
          rw [onData_failed hp hd hl hw]
          exact accounted_fail since rfl hf
        | ok _ =>
          rw [onData_ok hp hd hl hw]
          refine Step.Accounted.after ?_ since (by simp [Call.Vain])
          rw [← hf]
          exact accounted_acknowledge _ f' r' _
      · rw [onData_large hp hd (Nat.lt_of_not_le hl)]
        exact accounted_illegal (by rw [hp]; rfl) r _
    · obtain ⟨log, hstale⟩ := onData_stale hp hd hb r payload
      rw [hstale]
      exact .of_store_eq rfl

theorem accounted_onTimeout (hp : t.phase = .transferring f) (r : Recorded (Blamed σ)) :
    (t.onTimeout r).Accounted size f.number r := by
  by_cases hr : t.retries < t.maxRetries
  · obtain ⟨log, hresend⟩ := onTimeout_resend hp hr r
    rw [hresend]
    exact .of_store_eq rfl
  · obtain ⟨log, habort⟩ := onTimeout_abort hp (Nat.le_of_not_lt hr) r
    rw [habort]
    exact .released rfl

theorem accounted_react (modest : Storage.Modest σ) (hp : t.phase = .transferring f)
    (r : Recorded (Blamed σ)) (event : Event) :
    (t.react r event).Accounted t.blockSize f.number r := by
  cases event with
  | start =>
    have hidle : t.start r = t.idle r := by simp only [start, hp]
    exact .of_store_eq (congrArg Step.store hidle)
  | ack block => exact accounted_onAck modest hp r block
  | data block payload => exact accounted_onData hp r block payload
  | error code message =>
    refine .released ?_
    simp only [react, onError, hp]
    rfl
  | timeout => exact accounted_onTimeout hp r
  | illegal reason => exact accounted_illegal (by rw [hp]; rfl) r reason

theorem accounted_firstReply (modest : Storage.Modest σ) (t : Transfer (Numbered η))
    (f : Numbered η) (r : Recorded (Blamed σ)) :
    (t.firstReply f r).Accounted t.blockSize f.number r := by
  unfold firstReply
  split
  · split
    · exact accounted_sendNextBlock modest t f r
    · exact .of_store_eq rfl
  · exact .of_store_eq rfl

theorem accounted_start (modest : Storage.Modest σ) (hp : t.phase = .negotiating f)
    (r : Recorded (Blamed σ)) : (t.start r).Accounted t.blockSize f.number r := by
  have hfirst := accounted_firstReply modest (t.begun f r) f r
  unfold begun at hfirst
  unfold start
  simp only [hp]
  split
  · exact hfirst
  · rename_i hopen
    exact hfirst.congr rfl fun packet hc => absurd hc (hopen packet)

end Transfer
end Tftp
