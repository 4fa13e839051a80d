import Tftp.Proofs.Negotiation
import Tftp.Proofs.Packet.RoundTrip

namespace Tftp

theorem SameLetter.refl (b : UInt8) : SameLetter b b := .inl rfl

theorem OptionKind.zero_not_mem_name (k : OptionKind) : 0 ∉ k.name := by
  cases k <;> decide

theorem Choice.zero_not_mem_value (c : Choice) : 0 ∉ c.value := by
  rw [value_eq]
  exact zero_not_mem_decimal _

theorem Choice.InRange.proposes_field {c : Choice} (h : c.InRange) :
    c.field.Proposes c.kind c.number where
  name := List.forall₂_same.2 fun b _ => .refl b
  value := by
    rw [field, value_eq]
    exact numeral_decimal h.number_lt
  least := (inRange_iff.1 h).1
  greatest := (inRange_iff.1 h).2

namespace Accepted

theorem decode_fields (a : Accepted) :
    Packet.decode (Packet.bytes (.optionAck a.fields)) = .ok (.optionAck a.fields) := by
  have hplain : (Packet.optionAck a.fields).Representable := by
    intro o ho
    obtain ⟨c, -, rfl⟩ := List.mem_map.1 ho
    exact ⟨c.kind.zero_not_mem_name, c.zero_not_mem_value⟩
  exact Packet.decode_of_carries hplain.carries

theorem offer_field {a : Accepted} {c : Choice} (hc : c.InRange) (hnew : a.has c.kind = false) :
    (a.offer c.field).1 = ⟨a.choices ++ [c]⟩ := by
  have hp := hc.proposes_field
  have hoffered := a.offered c.field
  generalize (a.offer c.field).1 = b at hoffered ⊢
  cases hoffered with
  | skipped known => simp [known _ _ hp] at hnew
  | taken d _ proposed =>
    obtain ⟨hk, hn⟩ := proposed.unique hp
    rw [Choice.eq_of_number hk hn]

theorem offerAll_fields (a : Accepted) {cs : List Choice} (h : Tellable ⟨a.choices ++ cs⟩) :
    (a.offerAll (cs.map Choice.field)).1 = ⟨a.choices ++ cs⟩ := by
  induction cs generalizing a with
  | nil => rw [List.append_nil]; rfl
  | cons c cs ih =>
    have hc : c.InRange := h.inRange c (List.mem_append_right _ List.mem_cons_self)
    have hnew : a.has c.kind = false := by
      have hdistinct := h.distinct
      rw [List.map_append, List.map_cons, List.nodup_append] at hdistinct
      have hne : ∀ d ∈ a.choices, d.kind ≠ c.kind := fun d hd =>
        hdistinct.2.2 _ (List.mem_map_of_mem hd) c.kind List.mem_cons_self
      simpa [has] using hne
    have hrest : Tellable ⟨(⟨a.choices ++ [c]⟩ : Accepted).choices ++ cs⟩ := by simpa using h
    have hih := ih _ hrest
    rw [← offer_field hc hnew] at hih
    exact hih.trans (by simp [offer_field hc hnew])

theorem negotiate_fields {a : Accepted} (h : a.Tellable) : (negotiate a.fields).1 = a :=
  offerAll_fields {} h

def Understood (a : Accepted) : Prop :=
  ∃ packet options, Packet.encode (.optionAck a.fields) = .ok packet ∧
    Packet.decode packet = .ok (.optionAck options) ∧ (negotiate options).1 = a

theorem Tellable.understood {a : Accepted} (h : a.Tellable) : a.Understood :=
  ⟨_, a.fields, rfl, a.decode_fields, negotiate_fields h⟩

end Accepted

/-- Whatever is negotiated is understood, with the size that the peer has sent and with any other
in its place. -/
theorem negotiated_understood (os : List OptionField) (size : UInt64) :
    let a := (negotiate os).1
    let told := if a.has .transferSize then a.set (.transferSize size) else a
    a.Understood ∧ told.Understood := by
  intro a told
  have ha : a.Tellable := Accepted.tellable_negotiate os
  refine ⟨ha.understood, Accepted.Tellable.understood ?_⟩
  by_cases hk : a.has .transferSize
  · have htold : told = a.set (.transferSize size) := if_pos hk
    rw [htold]
    exact ha.set trivial hk
  · have htold : told = a := if_neg hk
    rwa [htold]

end Tftp
