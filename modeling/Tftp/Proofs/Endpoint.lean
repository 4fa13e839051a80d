import Tftp.Endpoint
import Tftp.Proofs.Bytes
import Tftp.Proofs.Decimal

namespace Tftp
namespace Endpoint

/-- Four numbers up to 255 between single dots, without superfluous zeros, and the address that
they make. -/
inductive Dotted : Bytes → UInt32 → Prop
  | intro {a b c d : Bytes} {i j k l : Nat} {address : UInt32} (first : Shortest a i)
      (second : Shortest b j) (third : Shortest c k) (fourth : Shortest d l)
      (small : i ≤ 255 ∧ j ≤ 255 ∧ k ≤ 255 ∧ l ≤ 255)
      (value : address.toNat = ((i * 256 + j) * 256 + k) * 256 + l) :
    Dotted (a ++ 46 :: (b ++ 46 :: (c ++ 46 :: d))) address

variable {a b c d : UInt8} {e : Endpoint} {s : Bytes} {port : UInt16}

theorem toNat_address (a b c d : UInt8) (port : UInt16) : (ofOctets a b c d port).address.toNat =
    ((a.toNat * 256 + b.toNat) * 256 + c.toNat) * 256 + d.toNat := by
  have ha := a.toNat_lt
  have hb := b.toNat_lt
  have hc := c.toNat_lt
  have hd := d.toNat_lt
  simp only [ofOctets, UInt32.toNat_add, UInt32.toNat_mul, UInt8.toNat_toUInt32,
    UInt32.reduceToNat]
  omega

@[simp] theorem octets_ofOctets (a b c d : UInt8) (port : UInt16) :
    (ofOctets a b c d port).octets = [a, b, c, d] := by
  have haddress := toNat_address a b c d port
  have ha := a.toNat_lt
  have hb := b.toNat_lt
  have hc := c.toNat_lt
  have hd := d.toNat_lt
  simp only [octets, List.cons.injEq, and_true, ← UInt8.toNat_inj, UInt32.toNat_toUInt8,
    UInt32.toNat_div, haddress, UInt32.reduceToNat]
  omega

theorem exists_ofOctets (e : Endpoint) : ∃ a b c d, e = ofOctets a b c d e.port := by
  obtain ⟨address, port⟩ := e
  refine ⟨(address / 16777216).toUInt8, (address / 65536).toUInt8, (address / 256).toUInt8,
    address.toUInt8, congrArg (mk · port) (UInt32.toNat_inj.1 ?_)⟩
  have haddress := address.toNat_lt
  refine Eq.trans ?_ (toNat_address _ _ _ _ port).symm
  simp only [UInt32.toNat_toUInt8, UInt32.toNat_div, UInt32.reduceToNat]
  omega

theorem octet?_eq_some_iff {text : Bytes} : octet? text = some a ↔ text = decimal a.toNat := by
  have ha := a.toNat_lt
  constructor
  · intro h
    unfold octet? at h
    split at h
    · split at h
      · rename_i n _ hn
        have hle : n.toNat ≤ 255 := hn.1
        have hmod : n.toUInt8.toNat = n.toNat := by
          rw [UInt64.toNat_toUInt8]
          omega
        cases h
        rw [hmod]
        exact hn.2.symm
      · cases h
    · cases h
  · rintro rfl
    have hn : a.toNat.toUInt64.toNat = a.toNat := toNat_toUInt64 (by omega)
    have hle : a.toNat.toUInt64 ≤ 255 := by
      rw [UInt64.le_iff_toNat_le, hn]
      exact Nat.le_of_lt_succ ha
    rw [octet?, decimal?_decimal (by omega)]
    dsimp only
    rw [hn, if_pos ⟨hle, rfl⟩]
    simp

theorem not_mem_decimal {b : UInt8} (h : isDigit b = false) (n : Nat) : b ∉ decimal n :=
  fun hb => by simp [isDigit_of_mem_decimal hb] at h

theorem parse?_eq_some_iff (h0 : 0 ∉ s) : parse? s port = some e ↔
    ∃ a b c d, s = dotted [a, b, c, d] ∧ e = ofOctets a b c d port := by
  rw [parse?, Bytes.untilNul_eq h0]
  constructor
  · intro h
    split at h
    · rename_i ta tb tc td hs
      simp only [Option.bind_eq_bind, Option.bind_eq_some_iff, Option.pure_def, Option.some.injEq,
        octet?_eq_some_iff] at h
      obtain ⟨a, rfl, b, rfl, c, rfl, d, rfl, rfl⟩ := h
      refine ⟨a, b, c, d, ?_, rfl⟩
      have htext := Bytes.intercalate_parts 46 s
      rw [hs] at htext
      rw [← htext]
      simp [dotted]
    · cases h
  · rintro ⟨a, b, c, d, rfl, rfl⟩
    have hdot : ∀ n, 46 ∉ decimal n := not_mem_decimal rfl
    have hparts : Bytes.parts 46 (dotted [a, b, c, d]) =
        [decimal a.toNat, decimal b.toNat, decimal c.toNat, decimal d.toNat] := by
      simp only [dotted, Bytes.parts_append, Bytes.parts_of_not_mem (hdot _)]
      rfl
    simp [hparts, octet?_eq_some_iff.2 rfl]

theorem dotted_iff : Dotted s e.address ↔
    ∃ a b c d, s = dotted [a, b, c, d] ∧ e = ofOctets a b c d e.port := by
  constructor
  · intro h
    obtain ⟨address, port⟩ := e
    cases h with
    | @intro _ _ _ _ i j k l _ first second third fourth small value =>
      have hword : ∀ n ≤ 255, n.toUInt8.toNat = n := by
        intro n hn
        simp only [Nat.toUInt8_eq, UInt8.toNat_ofNat']
        omega
      refine ⟨i.toUInt8, j.toUInt8, k.toUInt8, l.toUInt8, ?_, congrArg (mk · port) ?_⟩
      · rw [first.eq_decimal, second.eq_decimal, third.eq_decimal, fourth.eq_decimal]
        simp only [dotted, hword i small.1, hword j small.2.1, hword k small.2.2.1,
          hword l small.2.2.2]
      · refine UInt32.toNat_inj.1 (value.trans (Eq.trans ?_ (toNat_address _ _ _ _ port).symm))
        rw [hword i small.1, hword j small.2.1, hword k small.2.2.1, hword l small.2.2.2]
  · rintro ⟨a, b, c, d, rfl, he⟩
    have haddress := toNat_address a b c d e.port
    rw [← he] at haddress
    exact .intro (shortest_decimal _) (shortest_decimal _) (shortest_decimal _)
      (shortest_decimal _) ⟨Nat.le_of_lt_succ a.toNat_lt, Nat.le_of_lt_succ b.toNat_lt,
        Nat.le_of_lt_succ c.toNat_lt, Nat.le_of_lt_succ d.toNat_lt⟩ haddress

theorem not_mem_dotted {x : UInt8} (hx : isDigit x = false) (hdot : x ≠ 46) (e : Endpoint) :
    x ∉ dotted e.octets := by
  obtain ⟨a, b, c, d, he⟩ := exists_ofOctets e
  rw [he, octets_ofOctets]
  simp [dotted, not_mem_decimal hx, hdot]

theorem not_mem_text {x : UInt8} (hx : isDigit x = false) (hdot : x ≠ 46) (hcolon : x ≠ 58)
    (e : Endpoint) : x ∉ e.text :=
  List.not_mem_append (not_mem_dotted hx hdot e)
    (List.not_mem_cons_of_ne_of_not_mem hcolon (not_mem_decimal hx _))

theorem takeWhile_text (e : Endpoint) :
    e.text.takeWhile (· != 58) = dotted e.octets ∧ 0 ∉ dotted e.octets := by
  refine ⟨?_, not_mem_dotted rfl (by decide) e⟩
  rw [text, List.takeWhile_append_of_pos]
  · simp
  · intro x hx
    simpa using ne_of_mem_of_not_mem hx (not_mem_dotted rfl (by decide) e)

theorem parse?_text (e : Endpoint) : parse? (e.text.takeWhile (· != 58)) e.port = some e := by
  obtain ⟨htake, h0⟩ := takeWhile_text e
  obtain ⟨a, b, c, d, he⟩ := exists_ofOctets e
  rw [htake, parse?_eq_some_iff h0]
  refine ⟨a, b, c, d, ?_, he⟩
  rw [he, octets_ofOctets]

theorem text_injective : Function.Injective text := by
  intro e f h
  have htake : dotted e.octets = dotted f.octets := by
    rw [← (takeWhile_text e).1, ← (takeWhile_text f).1, h]
  have hdigits : decimal e.port.toNat = decimal f.port.toNat := by
    rw [text, text, htake] at h
    exact (List.cons.inj (List.append_cancel_left h)).2
  have hport : e.port = f.port := UInt16.toNat_inj.1 <|
    (shortest_decimal _).value.symm.trans (hdigits ▸ (shortest_decimal _).value)
  have he := parse?_text e
  rw [h, hport, parse?_text f] at he
  exact (Option.some.inj he).symm

/-- Endpoints and their texts correspond one to one. A text is read as an endpoint of some port
exactly if it is a dotted address, and this is what is printed of it in front of the port. -/
theorem text_one_to_one :
    (∀ e : Endpoint, parse? (e.text.takeWhile (· != 58)) e.port = some e) ∧
    (∀ (s : Bytes) (port : UInt16), 0 ∉ s →
      ((∃ e, parse? s port = some e) ↔ ∃ address, Dotted s address) ∧
      ∀ e, parse? s port = some e → Dotted s e.address ∧ e.port = port ∧
        ∃ digits, Shortest digits port.toNat ∧ e.text = s ++ 58 :: digits) ∧
    Function.Injective text := by
  refine ⟨parse?_text, fun s port h0 => ⟨?_, fun e he => ?_⟩, text_injective⟩
  · constructor
    · rintro ⟨e, he⟩
      obtain ⟨a, b, c, d, hs, rfl⟩ := (parse?_eq_some_iff h0).1 he
      exact ⟨_, dotted_iff (e := ofOctets a b c d port).2 ⟨a, b, c, d, hs, rfl⟩⟩
    · rintro ⟨address, hs⟩
      obtain ⟨a, b, c, d, hs, he⟩ := dotted_iff (e := ⟨address, port⟩).1 hs
      exact ⟨_, (parse?_eq_some_iff h0).2 ⟨a, b, c, d, hs, he⟩⟩
  · obtain ⟨a, b, c, d, hs, rfl⟩ := (parse?_eq_some_iff h0).1 he
    refine ⟨dotted_iff.2 ⟨a, b, c, d, hs, rfl⟩, rfl, _, shortest_decimal _, ?_⟩
    rw [text, octets_ofOctets, hs]
    rfl

theorem text_one_to_one_zero_octets :
    0 ∉ ascii "10.0.200.5" ∧
    parse? (ascii "10.0.200.5") 69 = some (ofOctets 10 0 200 5 69) ∧
    (∃ digits, Shortest digits 69 ∧
      (ofOctets 10 0 200 5 69).text = ascii "10.0.200.5" ++ 58 :: digits) ∧
    ∀ s ∈ [ascii "10.0.200.05", ascii "10.0.256.5", ascii "10.0.200.5."],
      ¬ ∃ address, Dotted s address := by
  have hparse : parse? (ascii "10.0.200.5") 69 = some (ofOctets 10 0 200 5 69) := by
    decide +kernel
  have hwrong : ∀ s ∈ [ascii "10.0.200.05", ascii "10.0.256.5", ascii "10.0.200.5."],
      0 ∉ s ∧ parse? s 69 = none := by
    decide +kernel
  refine ⟨by decide, hparse, ((text_one_to_one.2.1 _ _ (by decide)).2 _ hparse).2.2,
    fun s hs => ?_⟩
  obtain ⟨h0, hnone⟩ := hwrong s hs
  rw [← (text_one_to_one.2.1 s 69 h0).1, hnone]
  nofun

end Endpoint
end Tftp
