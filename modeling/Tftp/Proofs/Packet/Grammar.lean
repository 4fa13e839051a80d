import Tftp.Packet.Wire

/-!
The grammar of datagrams: which bytes carry which packet, said without a decoder. The decoder
accepts exactly this grammar, each datagram carries one packet at most, and a datagram is refused
for its mode only if nothing else is wrong with it.
-/

namespace Tftp
namespace Packet

def BigEndian (hi lo : UInt8) (n : UInt16) : Prop := n.toNat = 256 * hi.toNat + lo.toNat

inductive Pairs : Bytes → List OptionField → Prop
  | nil : Pairs [] []
  | cons {name value rest : Bytes} {options : List OptionField} :
      0 ∉ name → 0 ∉ value → Pairs rest options →
        Pairs (name ++ 0 :: (value ++ 0 :: rest)) (⟨name, value⟩ :: options)

/-- What stands behind the opcode of a request, whatever its mode. -/
inductive RequestText : Bytes → Request → Prop
  | intro {filename mode rest : Bytes} {options : List OptionField} :
      filename ≠ [] → 0 ∉ filename → mode ≠ [] → 0 ∉ mode → Pairs rest options →
        RequestText (filename ++ 0 :: (mode ++ 0 :: rest)) ⟨filename, mode, options⟩

inductive Asks : Bytes → Direction → Request → Prop
  | read {text : Bytes} {r : Request} : RequestText text r → Asks (0 :: 1 :: text) .read r
  | write {text : Bytes} {r : Request} : RequestText text r → Asks (0 :: 2 :: text) .write r

inductive Carries : Bytes → Packet → Prop
  | request {d : Bytes} {direction : Direction} {r : Request} :
      Asks d direction r → Bytes.sameName r.mode octetMode → Carries d (.request direction r)
  | data {hi lo : UInt8} {block : UInt16} {payload : Bytes} :
      BigEndian hi lo block → payload.length ≤ maxBlockSize →
        Carries (0 :: 3 :: hi :: lo :: payload) (.data block payload)
  | ack {hi lo : UInt8} {block : UInt16} : BigEndian hi lo block → Carries [0, 4, hi, lo] (.ack block)
  | error {hi lo : UInt8} {code : ErrorCode} {message trailing : Bytes} :
      BigEndian hi lo code.number → 0 ∉ message →
        Carries (0 :: 5 :: hi :: lo :: (message ++ 0 :: trailing)) (.error code message)
  | optionAck {text : Bytes} {options : List OptionField} :
      Pairs text options → Carries (0 :: 6 :: text) (.optionAck options)

theorem bigEndian_iff {hi lo : UInt8} {n : UInt16} : BigEndian hi lo n ↔ n = Bytes.word hi lo := by
  have hhi := hi.toNat_lt
  have hlo := lo.toNat_lt
  rw [BigEndian, ← UInt16.toNat_inj]
  simp only [Bytes.word, UInt16.toNat_add, UInt16.toNat_mul, UInt8.toNat_toUInt16,
    UInt16.reduceToNat]
  omega

theorem word_eq_iff {hi lo b : UInt8} : (Bytes.word hi lo).toNat = b.toNat ↔ hi = 0 ∧ lo = b := by
  have h : BigEndian hi lo (Bytes.word hi lo) := bigEndian_iff.2 rfl
  have hb := b.toNat_lt
  have hlo := lo.toNat_lt
  rw [BigEndian] at h
  rw [h, ← UInt8.toNat_inj, ← UInt8.toNat_inj (b := b)]
  simp only [UInt8.toNat_zero]
  omega

def PlainOptions (options : List OptionField) : Prop := ∀ o ∈ options, 0 ∉ o.name ∧ 0 ∉ o.value

theorem plainOptions_iff {options : List OptionField} :
    PlainOptions options ↔ ∀ f ∈ OptionField.toFields options, 0 ∉ f := by
  induction options with
  | nil => simp [PlainOptions, OptionField.toFields]
  | cons o options ih =>
    simp only [PlainOptions, List.mem_cons, forall_eq_or_imp, OptionField.toFields] at ih ⊢
    rw [ih, and_assoc]

theorem eq_toFields {fs : List Bytes} {options : List OptionField}
    (h : OptionField.ofFields? fs = some options) : fs = OptionField.toFields options := by
  induction fs using OptionField.ofFields?.induct generalizing options with
  | case1 =>
    cases h
    rfl
  | case2 => cases h
  | case3 name value fs ih =>
    rw [OptionField.ofFields?, Option.map_eq_some_iff] at h
    obtain ⟨others, ho, rfl⟩ := h
    rw [OptionField.toFields, ← ih ho]

theorem pairs_iff {text : Bytes} {options : List OptionField} :
    Pairs text options ↔ text = OptionField.bytes options ∧ PlainOptions options := by
  constructor
  · intro h
    induction h with
    | nil => exact ⟨rfl, nofun⟩
    | cons hname hvalue _ ih =>
      obtain ⟨rfl, hplain⟩ := ih
      refine ⟨by simp [OptionField.bytes, OptionField.toFields, Bytes.field], ?_⟩
      intro o ho
      rcases List.mem_cons.1 ho with rfl | ho
      · exact ⟨hname, hvalue⟩
      · exact hplain o ho
  · rintro ⟨rfl, hplain⟩
    induction options with
    | nil => exact .nil
    | cons o options ih =>
      obtain ⟨hname, hvalue⟩ := hplain o List.mem_cons_self
      have hrest := ih fun o ho => hplain o (List.mem_cons_of_mem _ ho)
      simpa [OptionField.bytes, OptionField.toFields, Bytes.field] using
        Pairs.cons hname hvalue hrest

theorem pairs_iff_fields {text : Bytes} {options : List OptionField} :
    Pairs text options ↔ (Bytes.fields? text).bind OptionField.ofFields? = some options := by
  rw [pairs_iff, plainOptions_iff, Option.bind_eq_some_iff]
  constructor
  · rintro ⟨rfl, hplain⟩
    exact ⟨_, Bytes.fields?_flatMap hplain, OptionField.ofFields?_toFields options⟩
  · rintro ⟨fs, hfs, ho⟩
    obtain rfl := eq_toFields ho
    exact Bytes.fields?_eq_some_iff.1 hfs

theorem requestText_iff (direction : Direction) {text : Bytes} {r : Request} :
    RequestText text r ↔ text = body (.request direction r) ∧ r.filename ≠ [] ∧ 0 ∉ r.filename ∧
      r.mode ≠ [] ∧ 0 ∉ r.mode ∧ PlainOptions r.options := by
  constructor
  · intro h
    cases h with
    | intro hfilename hf hmode hm hp =>
      obtain ⟨rfl, hplain⟩ := pairs_iff.1 hp
      exact ⟨by simp [body, Bytes.field], hfilename, hf, hmode, hm, hplain⟩
  · rintro ⟨rfl, hfilename, hf, hmode, hm, hplain⟩
    have h := RequestText.intro hfilename hf hmode hm (pairs_iff.2 ⟨rfl, hplain⟩)
    simpa [body, Bytes.field] using h

theorem requestText_iff_fields {text : Bytes} {r : Request} :
    RequestText text r ↔ ∃ rest, Bytes.fields? text = some (r.filename :: r.mode :: rest) ∧
      OptionField.ofFields? rest = some r.options ∧ r.filename ≠ [] ∧ r.mode ≠ [] := by
  have hbody : body (.request .read r) =
      (r.filename :: r.mode :: OptionField.toFields r.options).flatMap Bytes.field := rfl
  rw [requestText_iff .read, plainOptions_iff, hbody]
  constructor
  · rintro ⟨rfl, hfilename, hf, hmode, hm, hplain⟩
    refine ⟨_, Bytes.fields?_flatMap ?_, OptionField.ofFields?_toFields _, hfilename, hmode⟩
    simpa [hf, hm] using hplain
  · rintro ⟨rest, hfs, ho, hfilename, hmode⟩
    obtain rfl := eq_toFields ho
    obtain ⟨rfl, hplain⟩ := Bytes.fields?_eq_some_iff.1 hfs
    simp only [List.mem_cons, forall_eq_or_imp] at hplain
    exact ⟨rfl, hfilename, hplain.1, hmode, hplain.2.1, hplain.2.2⟩

theorem decodeRequest_of_text {text : Bytes} {r : Request} (h : RequestText text r)
    (direction : Direction) :
    decodeRequest direction text =
      if Bytes.sameName r.mode octetMode then .ok (.request direction r)
      else .error .unsupportedMode := by
  obtain ⟨rest, hfs, ho, hfilename, hmode⟩ := requestText_iff_fields.1 h
  by_cases hm : Bytes.sameName r.mode octetMode <;>
    simp [decodeRequest, hfs, ho, hfilename, hmode, hm]

theorem decode_of_asks {d : Bytes} {direction : Direction} {r : Request} (h : Asks d direction r) :
    decode d =
      if Bytes.sameName r.mode octetMode then .ok (.request direction r)
      else .error .unsupportedMode := by
  cases h with
  | read h => exact decodeRequest_of_text h .read
  | write h => exact decodeRequest_of_text h .write

theorem decode_of_carries {d : Bytes} {p : Packet} (h : Carries d p) : decode d = .ok p := by
  cases h with
  | request ha hm => rw [decode_of_asks ha, if_pos hm]
  | data hn hl =>
    rw [bigEndian_iff.1 hn]
    exact if_neg (Nat.not_lt_of_le hl)
  | ack hn =>
    rw [bigEndian_iff.1 hn]
    rfl
  | @error hi lo code message trailing hn hm =>
    have hcut : Bytes.cutField? (message ++ 0 :: trailing) = some (message, trailing) := by
      rw [Bytes.cutField?_eq_some_iff]
      exact ⟨by simp [Bytes.field], hm⟩
    have hcode : code = ⟨Bytes.word hi lo⟩ := congrArg ErrorCode.mk (bigEndian_iff.1 hn)
    change decodeError (hi :: lo :: (message ++ 0 :: trailing)) = _
    simp only [decodeError, hcut, hcode]
  | optionAck hp =>
    change decodeOptionAck _ = _
    rw [decodeOptionAck, pairs_iff_fields.1 hp]

/-- What an answer of the decoder says about a datagram. -/
def Justified (d : Bytes) : Except DecodeError Packet → Prop
  | .ok p => Carries d p
  | .error .unsupportedMode =>
    ∃ direction r, Asks d direction r ∧ ¬ Bytes.sameName r.mode octetMode
  | .error .malformed => True

theorem justified_decodeRequest {d text : Bytes} {direction : Direction}
    (hd : ∀ r, RequestText text r → Asks d direction r) :
    Justified d (decodeRequest direction text) := by
  unfold decodeRequest
  split
  · rename_i filename mode rest hfs
    split
    · trivial
    · rename_i options ho
      split
      · trivial
      · rename_i hne
        simp only [Bool.or_eq_true, List.isEmpty_iff, not_or] at hne
        have ha := hd ⟨filename, mode, options⟩ (requestText_iff_fields.2 ⟨rest, hfs, ho, hne⟩)
        split
        · rename_i hm
          exact ⟨direction, _, ha, by simpa using hm⟩
        · rename_i hm
          exact .request ha (by simpa using hm)
  · trivial

theorem justified_decodeData (body : Bytes) : Justified (0 :: 3 :: body) (decodeData body) := by
  unfold decodeData
  split
  · split
    · trivial
    · rename_i hl
      exact .data (bigEndian_iff.2 rfl) (Nat.le_of_not_lt hl)
  · trivial

theorem justified_decodeAck (body : Bytes) : Justified (0 :: 4 :: body) (decodeAck body) := by
  unfold decodeAck
  split
  · exact .ack (bigEndian_iff.2 rfl)
  · trivial

theorem justified_decodeError (body : Bytes) : Justified (0 :: 5 :: body) (decodeError body) := by
  unfold decodeError
  split
  · split
    · rename_i message trailing hcut
      obtain ⟨rfl, hm⟩ := Bytes.cutField?_eq_some_iff.1 hcut
      rw [Bytes.field, List.append_assoc]
      exact .error (bigEndian_iff.2 rfl) hm
    · trivial
  · trivial

theorem justified_decodeOptionAck (text : Bytes) :
    Justified (0 :: 6 :: text) (decodeOptionAck text) := by
  unfold decodeOptionAck
  split
  · rename_i hp
    exact .optionAck (pairs_iff_fields.2 hp)
  · trivial

theorem justified_decode (d : Bytes) : Justified d (decode d) := by
  unfold decode
  split
  · rename_i hi lo text
    split
    · rename_i hop
      obtain ⟨rfl, rfl⟩ := word_eq_iff (b := 1).1 hop
      exact justified_decodeRequest fun _ => .read
    · rename_i hop
      obtain ⟨rfl, rfl⟩ := word_eq_iff (b := 2).1 hop
      exact justified_decodeRequest fun _ => .write
    · rename_i hop
      obtain ⟨rfl, rfl⟩ := word_eq_iff (b := 3).1 hop
      exact justified_decodeData text
    · rename_i hop
      obtain ⟨rfl, rfl⟩ := word_eq_iff (b := 4).1 hop
      exact justified_decodeAck text
    · rename_i hop
      obtain ⟨rfl, rfl⟩ := word_eq_iff (b := 5).1 hop
      exact justified_decodeError text
    · rename_i hop
      obtain ⟨rfl, rfl⟩ := word_eq_iff (b := 6).1 hop
      exact justified_decodeOptionAck text
    · trivial
  · trivial

theorem decode_eq_ok_iff {d : Bytes} {p : Packet} : decode d = .ok p ↔ Carries d p := by
  constructor
  · intro h
    have hj := justified_decode d
    rwa [h] at hj
  · exact decode_of_carries

theorem decode_eq_unsupportedMode_iff {d : Bytes} : decode d = .error .unsupportedMode ↔
    ∃ direction r, Asks d direction r ∧ ¬ Bytes.sameName r.mode octetMode := by
  constructor
  · intro h
    have hj := justified_decode d
    rwa [h] at hj
  · rintro ⟨direction, r, ha, hm⟩
    rw [decode_of_asks ha, if_neg hm]

end Packet
end Tftp
