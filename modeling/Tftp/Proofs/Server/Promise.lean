import Tftp.Proofs.Server.Timers
import Tftp.Proofs.Transfer.Promise

namespace Tftp
namespace Server

variable {σ η : Type} [Storage σ η]

structure Promised (d : Direction) (options : List OptionField) (size : UInt64) (first : Step σ η)
    (packet : Bytes) : Prop where
  opened : first.action = .opened packet
  listed : (∃ fields, Packet.decode packet = .ok (.optionAck fields)) ↔
    (negotiate options).1.choices ≠ []
  names : ∀ fields, Packet.decode packet = .ok (.optionAck fields) →
    fields.map (·.name) = (negotiate options).1.choices.map (·.kind.name)
  numbers : ∀ k, promised? k packet = (asked? k options).map fun c =>
    if d = .read ∧ k = .transferSize then size.toNat else c.number
  /-- No block is longer than promised, and a short one is the last one. -/
  blocks : d = .read → ∀ events block payload,
    (first.run events).action.packet = Packet.bytes (.data block payload) →
      payload.length ≤ (promised? .blockSize packet).getD defaultBlockSize ∧
      (payload.length < (promised? .blockSize packet).getD defaultBlockSize →
        ∀ more block' payload',
          (first.run (events ++ more)).action.packet = Packet.bytes (.data block' payload') →
            Packet.bytes (.data block' payload') = Packet.bytes (.data block payload))
  takes : d = .write → ∀ events, (first.run events).transfer.terminal = false →
    (first.run events).Takes ((promised? .blockSize packet).getD defaultBlockSize)

variable {P : η → σ → Prop} {q : Endpoint} {d : Direction} {r : Request} {limits : Limits}
  {file : η} {store : σ} {packet : Bytes}

theorem announces_begun (h : (begun q d r limits file store).action = .opened packet) :
    (Transfer.new q d r.filename file (negotiate r.options).1 limits).Announces file store packet :=
  (Transfer.opening_start rfl store).announces h (Accepted.inRange_negotiate r.options)

theorem terms_begun (q : Endpoint) (d : Direction) (r : Request) (limits : Limits) (file : η)
    (store : σ) : (begun q d r limits file store).transfer.terms =
      (Transfer.new q d r.filename file (negotiate r.options).1 limits).terms :=
  Transfer.terms_start _ store

theorem blockSize_begun (h : (begun q d r limits file store).action = .opened packet) :
    (begun q d r limits file store).transfer.blockSize =
      (promised? .blockSize packet).getD defaultBlockSize := by
  have hnew := congrArg Transfer.Terms.blockSize (terms_begun q d r limits file store)
  refine hnew.trans ?_
  rw [(announces_begun h).numbers]
  simp only [reduceCtorEq, and_false, if_false]
  exact congrArg (·.getD defaultBlockSize) (negotiate r.options).1.blockSize?_eq

theorem timeout_begun (h : (begun q d r limits file store).action = .opened packet) :
    (begun q d r limits file store).transfer.timeout =
      ((promised? .timeout packet).map .ofNat).getD limits.timeout := by
  have hnew := congrArg Transfer.Terms.timeout (terms_begun q d r limits file store)
  refine hnew.trans ?_
  rw [(announces_begun h).numbers]
  simp only [reduceCtorEq, and_false, if_false]
  have haccepted := congrArg (·.map Int64.ofNat) (negotiate r.options).1.timeout?_eq
  exact congrArg (·.getD limits.timeout) ((Option.map_map ..).symm.trans haccepted)

theorem promised_begun (hP : Storage.Reliable P) (q : Endpoint) (d : Direction) (r : Request)
    (limits : Limits) (hf : P file store) :
    ∃ packet, Promised d r.options (Storage.size file store) (begun q d r limits file store)
      packet := by
  let t := Transfer.new q d r.filename file (negotiate r.options).1 limits
  have hopening : t.Opening file store (begun q d r limits file store) :=
    Transfer.opening_start (t := t) rfl store
  obtain ⟨packet, ha⟩ := hopening.opened hP hf
  have hannounces := announces_begun ha
  have hterms := terms_begun q d r limits file store
  have hgood : (begun q d r limits file store).Good P := by
    refine hP.good_react (t := t) ?_ .start
    intro f hm
    cases hm
    exact hf
  have hsize : (promised? .blockSize packet).getD defaultBlockSize = t.blockSize :=
    (blockSize_begun ha).symm.trans (congrArg Transfer.Terms.blockSize hterms)
  refine ⟨packet, {
    opened := ha
    listed := hannounces.listed
    names := hannounces.names
    numbers := fun k => by
      rw [hannounces.numbers, ← Accepted.choice?_negotiate]
      rfl
    blocks := fun hd events block payload hblock => ?_
    takes := fun hd events hrunning => ?_ }⟩
  · have hreads := (hopening.reads hP ha hd hf).run hP
      (fun _ block _ _ hl => Fits.of_length block hl) hgood events
    obtain ⟨hle, -⟩ := hreads.holds hblock block payload rfl
    rw [hsize]
    refine ⟨hle, fun hshort more block' payload' hmore => ?_⟩
    rw [Step.run_append] at hmore
    exact hreads.ended hP (hP.good_run hgood events) hblock hshort more hmore
  · have hrun : (begun q d r limits file store).transfer.Running := by
      rcases Transfer.outcome_start (t := t) store rfl (Nat.zero_le _) with
        ⟨_, -, -, hrun⟩ | ⟨_, hclosed, -⟩
      · exact hrun
      · cases hclosed.symm.trans ha
    have hstill := (Step.running_run (.inl hrun) events).resolve_right fun hover => by
      rw [Transfer.terminal, Phase.terminal, hover] at hrunning
      cases hrunning
    obtain ⟨f, hp⟩ := hstill.phase
    have hrunterms := (Step.terms_run (begun q d r limits file store) events).trans hterms
    have htakes := Step.takes hP hp ((congrArg Transfer.Terms.direction hrunterms).trans hd)
      (hP.good_run hgood events f (by rw [hp]; rfl))
    have hblocks : ((begun q d r limits file store).run events).transfer.blockSize = t.blockSize :=
      congrArg Transfer.Terms.blockSize hrunterms
    rwa [hsize, ← hblocks]

theorem deadline_promised (store : σ) (limits : Limits) (capacity : Nat) (events : List Event)
    (q : Endpoint) (t : Transfer η)
    (ht : ((new store limits capacity).run events).1.table.find? q = some t) :
    ∃ packet last, greeting? q (new store limits capacity) events = some packet ∧
      BegunWith σ q limits packet t ∧ lastSpoke? q (new store limits capacity) events = some last ∧
      ((new store limits capacity).run events).1.timers.deadline? q =
        some (last + .seconds (((promised? .timeout packet).map .ofNat).getD limits.timeout)) := by
  have k := Storage.Kept.always σ η
  have hfirst : Sound (fun (_ : List η) (_ : σ) => True) capacity [] (new store limits capacity) :=
    .new trivial
  obtain ⟨packet, hgreeting, hbegun⟩ := hfirst.begunWith k rfl events ht
  obtain ⟨last, hlast, hdeadline⟩ := hfirst.deadline_run k rfl events ht
  have htimeout : t.timeout = ((promised? .timeout packet).map .ofNat).getD limits.timeout := by
    obtain ⟨d, r, file, store', hopened, hterms, -⟩ := hbegun
    exact (congrArg Transfer.Terms.timeout hterms).trans (timeout_begun hopened)
  exact ⟨packet, last, hgreeting, hbegun, hlast, htimeout ▸ hdeadline⟩

/-- What the first packet of a transfer says of its options is what was accepted, and the transfer
keeps to it as long as it lasts: with the blocks that it sends and takes, if its file never fails,
and with every deadline that is set for it. -/
theorem promise_kept (hP : Storage.Reliable P) :
    (∀ q d r limits file store, P file store → ∃ packet, Promised d r.options
      (Storage.size file store) (begun q d r limits file store) packet) ∧
    ∀ (store : σ) limits capacity events q (t : Transfer η),
      ((new store limits capacity).run events).1.table.find? q = some t →
        ∃ packet last, greeting? q (new store limits capacity) events = some packet ∧
          BegunWith σ q limits packet t ∧
          lastSpoke? q (new store limits capacity) events = some last ∧
          ((new store limits capacity).run events).1.timers.deadline? q =
            some (last + .seconds (((promised? .timeout packet).map .ofNat).getD limits.timeout)) :=
  ⟨fun q d r limits _ _ hf => promised_begun hP q d r limits hf, deadline_promised⟩

theorem promise_kept_ten_bytes :
    let content : Bytes := [0, 1, 2, 3, 4, 5, 6, 7, 8, 9]
    let store : Memory.Files := Memory.Files.put (ascii "f") { content := some content } []
    let file : Memory.Handle := ⟨ascii "f", content, 10, []⟩
    let q : Endpoint := ⟨2130706433, 4000⟩
    let r : Request := ⟨ascii "f", octetMode, [⟨ascii "TSIZE", ascii "0"⟩,
      ⟨ascii "timeout", ascii "0"⟩, ⟨ascii "blksize", ascii "8"⟩, ⟨ascii "timeout", ascii "3"⟩]⟩
    let events := [fromPort 4000 (.request .read r) 0, fromPort 4000 (.ack 0) 100]
    (∃ packet, Promised .read r.options 10 (begun q .read r {} file store) packet ∧
      promised? .blockSize packet = some 8 ∧ promised? .transferSize packet = some 10) ∧
    ∃ t packet last, ((new store {} 2).run events).1.table.find? q = some t ∧
      greeting? q (new store {} 2) events = some packet ∧ BegunWith Memory.Files q {} packet t ∧
      lastSpoke? q (new store {} 2) events = some last ∧
      ((new store {} 2).run events).1.timers.deadline? q =
        some (last + .seconds (((promised? .timeout packet).map .ofNat).getD 5)) ∧
      last = 100 ∧ promised? .timeout packet = some 3 := by
  intro content store file q r events
  obtain ⟨hkept, htimers⟩ := promise_kept Memory.reliable
  have hgood : (store.get file.name).readFault = none ∧ (store.get file.name).writeFault = none ∧
      (store.get file.name).commitFault = none := by decide +kernel
  obtain ⟨packet, hpromised⟩ := hkept q .read r {} file store hgood
  have hsome : (((new store {} 2).run events).1.table.find? q).isSome := by decide +kernel
  obtain ⟨t, ht⟩ := Option.isSome_iff_exists.1 hsome
  obtain ⟨greeting, last, hgreeting, hbegun, hlast, hdeadline⟩ := htimers store {} 2 events q t ht
  have hten : lastSpoke? q (new store {} 2) events = some 100 := by decide +kernel
  have hthree : (greeting? q (new store {} 2) events).bind (promised? .timeout) = some 3 := by
    decide +kernel
  refine ⟨⟨packet, hpromised, ?_, ?_⟩, t, greeting, last, ht, hgreeting, hbegun, hlast, hdeadline,
    Option.some.inj (hlast.symm.trans hten), by simpa [hgreeting] using hthree⟩
  · rw [hpromised.numbers]
    decide +kernel
  · rw [hpromised.numbers]
    decide +kernel

end Server
end Tftp
