import SlipBoard.Snmp.Model.Message
import SlipBoard.Snmp.Asn1
/-!
# SNMP — the varbinds of a message come back

A varbind that the agent can hold (`Holds`) is appended as
`varbindOctets`, and the enumerator reads it from there. So what is
enumerated of a message is what was appended to it, one varbind behind
the other, up to the first that had no room (`enumerates_append`).
-/

namespace SlipBoard

namespace Snmp

open Bytes Code

variable {vb : SnmpVarbind} {vbs : List SnmpVarbind}

/-! ## Values -/

/-- The memory of a value of the type `type`, as a node hands it to the
agent. -/
def ValueHolds (type : UInt8) (value : List UInt8) : Prop :=
  if type = asn1Integer ∨ isU32 type then value.length = 4
  else if isRaw type then value.length ≤ snmpMaxValueSize
  else if type = asn1Null then value = []
  else if type = asn1ObjectId then
    Packs (subIds value) ∧ ofSubIds (subIds value) = value ∧ value.length ≤ snmpMaxValueSize
  else if type = asn1Ipaddr then value.length = 4
  else type = asn1Counter64 ∧ value.length = 8

instance (type : UInt8) (value : List UInt8) : Decidable (ValueHolds type value) := by
  unfold ValueHolds
  infer_instance

/-- A varbind that the agent can hold: a name it can pack, and a value in
the memory its type asks for. -/
structure SnmpVarbind.Holds (vb : SnmpVarbind) : Prop where
  packs : Packs vb.oid
  oidLen : vb.oid.length ≤ snmpMaxObjIdLen
  raw : vb.raw = false
  valueLen : vb.valueLen = vb.value.length
  value : ValueHolds vb.type vb.value

/-- The octets of a value, without its head: numbers in as few octets as
they need, strings as they are. -/
def valueOctets (type : UInt8) (value : List UInt8) : List UInt8 :=
  if type = asn1Integer then
    bigEndian (snmpAsn1EncS32tCnt (Bytes.value value.reverse)) (Bytes.value value.reverse)
  else if isU32 type then
    bigEndian (snmpAsn1EncU32tCnt (Bytes.value value.reverse)) (Bytes.value value.reverse)
  else if type = asn1ObjectId then oidOctets (subIds value)
  else if type = asn1Counter64 then
    bigEndian (snmpAsn1EncU64tCnt (Bytes.value value.reverse)) (Bytes.value value.reverse)
  else value

theorem value_lt_pow {value : List UInt8} {n : ℕ} (h : value.length = n) :
    Bytes.value value.reverse < 256 ^ n := by
  have hlt : Bytes.value value.reverse < 256 ^ value.reverse.length := value_lt
  rwa [List.length_reverse, h] at hlt

/-- What a value is coded by: its length, its octets, and its decoder. -/
structure Coded (vb : SnmpVarbind) : Prop where
  length : valueValueLen vb = .ok (valueOctets vb.type vb.value).length
  enc : valueOctets vb.type vb.value ≠ [] →
    Writes (encValue vb (valueOctets vb.type vb.value).length) (valueOctets vb.type vb.value) ()
  dec : Reads (decValue vb.type (valueOctets vb.type vb.value).length)
    (valueOctets vb.type vb.value) vb.value
  short : (valueOctets vb.type vb.value).length ≤ 160

theorem coded_integer (h : vb.Holds) (htype : vb.type = asn1Integer) : Coded vb := by
  have hlen : vb.value.length = 4 := by
    have hvalue := h.value
    rwa [ValueHolds, if_pos (Or.inl htype)] at hvalue
  have hvalueLen : vb.valueLen = 4 := h.valueLen.trans hlen
  have hnumber : vb.number 4 = Bytes.value vb.value.reverse := by
    rw [SnmpVarbind.number, List.take_of_length_le hlen.le]
  obtain ⟨hwrites, hreads⟩ := reads_s32 (value_lt_pow hlen)
  obtain ⟨hpos, hfive, -⟩ := encS32tCnt_spec (value_lt_pow hlen)
  have hoctets : valueOctets vb.type vb.value = bigEndian
      (snmpAsn1EncS32tCnt (Bytes.value vb.value.reverse)) (Bytes.value vb.value.reverse) := if_pos htype
  have hback := littleEndian_value vb.value
  rw [hlen] at hback
  refine ⟨?_, fun _ => ?_, ?_, ?_⟩
  · rw [hoctets, length_bigEndian, valueValueLen, hvalueLen, h.raw, htype, hnumber]
    rfl
  · rw [hoctets, length_bigEndian, encValue, h.raw, htype, hnumber]
    exact hwrites
  · rw [hoctets, length_bigEndian, decValue, if_pos htype]
    have hdec := (hreads.mapError vbParseExec).map (littleEndian 4)
    rwa [hback] at hdec
  · rw [hoctets, length_bigEndian]
    omega

theorem coded_u32 (h : vb.Holds) (htype : isU32 vb.type = true) : Coded vb := by
  have hne : vb.type ≠ asn1Integer := by
    intro heq
    rw [heq] at htype
    exact absurd htype (by decide)
  have hlen : vb.value.length = 4 := by
    have hvalue := h.value
    rwa [ValueHolds, if_pos (Or.inr htype)] at hvalue
  have hvalueLen : vb.valueLen = 4 := h.valueLen.trans hlen
  have hnumber : vb.number 4 = Bytes.value vb.value.reverse := by
    rw [SnmpVarbind.number, List.take_of_length_le hlen.le]
  obtain ⟨hwrites, hreads⟩ := reads_u32 (value_lt_pow hlen)
  have hle := (room_u32 (value_lt_pow hlen)).le
  have hoctets : valueOctets vb.type vb.value = bigEndian
      (snmpAsn1EncU32tCnt (Bytes.value vb.value.reverse)) (Bytes.value vb.value.reverse) := by
    rw [valueOctets, if_neg hne, if_pos htype]
  have hback := littleEndian_value vb.value
  rw [hlen] at hback
  refine ⟨?_, fun _ => ?_, ?_, ?_⟩
  · rw [hoctets, length_bigEndian, valueValueLen, hvalueLen, h.raw, if_neg hne, if_pos htype, hnumber]
    rfl
  · rw [hoctets, length_bigEndian, encValue, h.raw, if_neg hne, if_pos htype, hnumber]
    exact hwrites
  · rw [hoctets, length_bigEndian, decValue, if_neg hne, if_pos htype]
    have hdec := (hreads.mapError vbParseExec).map (littleEndian 4)
    rwa [hback] at hdec
  · rw [hoctets, length_bigEndian]
    omega

theorem coded_u64 (h : vb.Holds) (htype : vb.type = asn1Counter64) : Coded vb := by
  have hlen : vb.value.length = 8 := by
    have hvalue := h.value
    rw [ValueHolds, htype] at hvalue
    exact hvalue.2
  have hvalueLen : vb.valueLen = 8 := h.valueLen.trans hlen
  have hnumber : vb.number 8 = Bytes.value vb.value.reverse := by
    rw [SnmpVarbind.number, List.take_of_length_le hlen.le]
  obtain ⟨hwrites, hreads⟩ := reads_u64 (value_lt_pow hlen)
  have hle := (room_u64 (value_lt_pow hlen)).le
  have hoctets : valueOctets vb.type vb.value = bigEndian
      (snmpAsn1EncU64tCnt (Bytes.value vb.value.reverse)) (Bytes.value vb.value.reverse) := by
    rw [valueOctets, htype]
    rfl
  have hback := littleEndian_value vb.value
  rw [hlen] at hback
  refine ⟨?_, fun _ => ?_, ?_, ?_⟩
  · rw [hoctets, length_bigEndian, valueValueLen, hvalueLen, h.raw, htype, hnumber]
    rfl
  · rw [hoctets, length_bigEndian, encValue, h.raw, htype, hnumber]
    exact hwrites
  · rw [hoctets, length_bigEndian, decValue, htype]
    have hdec := (hreads.mapError vbParseExec).map (littleEndian 8)
    rwa [hback] at hdec
  · rw [hoctets, length_bigEndian]
    omega

/-- What is raw data, or an address, is of none of the other types. -/
theorem not_of_raw {type : UInt8} (h : isRaw type = true ∨ type = asn1Ipaddr) :
    type ≠ asn1Integer ∧ ¬ isU32 type = true ∧ type ≠ asn1Null ∧ type ≠ asn1ObjectId ∧
      type ≠ asn1Counter64 := by
  have hcases : (type = asn1OctetString ∨ type = asn1Opaque) ∨ type = asn1Ipaddr :=
    h.imp_left of_decide_eq_true
  rcases hcases with (rfl | rfl) | rfl
  · decide
  · decide
  · decide

theorem coded_raw (h : vb.Holds) (htype : isRaw vb.type = true ∨ vb.type = asn1Ipaddr) :
    Coded vb := by
  obtain ⟨hint, hu32, hnull, hoid, h64⟩ := not_of_raw htype
  have hoctets : valueOctets vb.type vb.value = vb.value := by
    rw [valueOctets, if_neg hint, if_neg hu32, if_neg hoid, if_neg h64]
  have hholds : isRaw vb.type = true ∧ vb.value.length ≤ snmpMaxValueSize ∨
      isRaw vb.type = false ∧ vb.type = asn1Ipaddr ∧ vb.value.length = 4 := by
    have hvalue := h.value
    rw [ValueHolds, if_neg (not_or_intro hint hu32)] at hvalue
    rcases htype with hraw | hipaddr
    · rw [if_pos hraw] at hvalue
      exact Or.inl ⟨hraw, hvalue⟩
    · rw [hipaddr] at hvalue ⊢
      exact Or.inr ⟨rfl, rfl, hvalue⟩
  have hlen : vb.value.length ≤ snmpMaxValueSize := by
    rcases hholds with ⟨-, hle⟩ | ⟨-, -, hfour⟩
    · exact hle
    · exact hfour.le.trans (by decide)
  have hread : Reads (snmpAsn1DecRaw vb.value.length snmpMaxValueSize) vb.value vb.value := by
    rw [snmpAsn1DecRaw, if_neg (Nat.not_lt.2 hlen)]
    exact reads_decRaw vb.value
  refine ⟨?_, fun hne => ?_, ?_, ?_⟩
  · rw [hoctets, valueValueLen, h.valueLen, if_neg hint, if_neg hu32, if_pos htype, ite_self]
  · rw [hoctets] at hne ⊢
    rw [encValue, h.raw, if_neg Bool.false_ne_true, if_neg hint, if_neg hu32, if_pos htype,
      List.take_length]
    exact writes_writebuf hne
  · rw [hoctets, decValue, if_neg hint, if_neg hu32]
    rcases hholds with ⟨hraw, -⟩ | ⟨hraw, hipaddr, hfour⟩
    · rw [if_pos hraw]
      exact hread.mapError vbLengthErr
    · rw [hraw, if_neg Bool.false_ne_true, if_neg hnull, if_neg hoid, if_pos hipaddr, if_pos hfour]
      exact hread.mapError vbParseExec
  · rw [hoctets]
    exact hlen.trans (by decide)

theorem coded_null (h : vb.Holds) (htype : vb.type = asn1Null) : Coded vb := by
  have hnil : vb.value = [] := by
    have hvalue := h.value
    rwa [ValueHolds, htype] at hvalue
  have hoctets : valueOctets vb.type vb.value = [] := by
    rw [valueOctets, htype, hnil]
    rfl
  refine ⟨?_, fun hne => absurd hoctets hne, ?_, ?_⟩
  · rw [hoctets, valueValueLen, h.valueLen, hnil]
    rfl
  · rw [hoctets, htype, hnil]
    exact Reads.pure []
  · rw [hoctets]
    exact Nat.zero_le _

theorem length_flatMap_subIdOctets (oid : List UInt32) :
    (oid.flatMap subIdOctets).length ≤ 5 * oid.length := by
  induction oid with
  | nil => exact Nat.le_refl 0
  | cons subId oid ih =>
    have hone := (subIdCnt_spec subId).1
    rw [List.flatMap_cons, List.length_append, length_subIdOctets, List.length_cons]
    omega

/-- An object identifier is at most five octets for each of its
sub-identifiers. -/
theorem length_oidOctets_le {oid : List UInt32} (hpacks : Packs oid) :
    0 < (oidOctets oid).length ∧ (oidOctets oid).length ≤ 5 * (oid.length - 2) + 1 := by
  match oid, hpacks with
  | id₀ :: id₁ :: rest, _ =>
    have hrest := length_flatMap_subIdOctets rest
    rw [oidOctets, List.length_cons, List.length_cons, List.length_cons]
    omega

theorem length_ofSubIds (oid : List UInt32) : (ofSubIds oid).length = 4 * oid.length := by
  induction oid with
  | nil => rfl
  | cons subId oid ih =>
    have hfour : (littleEndian 4 subId.toNat).length = 4 := by
      rw [littleEndian, List.length_reverse, length_bigEndian]
    have hcons : ofSubIds (subId :: oid) = littleEndian 4 subId.toNat ++ ofSubIds oid := rfl
    rw [hcons, List.length_append, hfour, ih, List.length_cons]
    omega

theorem coded_oid (h : vb.Holds) (htype : vb.type = asn1ObjectId) : Coded vb := by
  obtain ⟨hpacks, hback, hlen⟩ : Packs (subIds vb.value) ∧ ofSubIds (subIds vb.value) = vb.value ∧
      vb.value.length ≤ snmpMaxValueSize := by
    have hvalue := h.value
    rwa [ValueHolds, htype] at hvalue
  have hwords : vb.value.length = 4 * (subIds vb.value).length := by
    rw [← length_ofSubIds, hback]
  have hfits : (subIds vb.value).length ≤ 32 := by
    have hle : vb.value.length ≤ 128 := hlen
    omega
  have hoctets : valueOctets vb.type vb.value = oidOctets (subIds vb.value) := by
    rw [valueOctets, htype]
    rfl
  have htake : vb.value.take vb.valueLen = vb.value := by
    rw [h.valueLen, List.take_length]
  obtain ⟨hpos, hle⟩ := length_oidOctets_le hpacks
  obtain ⟨id₀, id₁, oid, hids⟩ : ∃ id₀ id₁ oid, subIds vb.value = id₀ :: id₁ :: oid := by
    match hids : subIds vb.value, hpacks with
    | id₀ :: id₁ :: oid, _ => exact ⟨id₀, id₁, oid, rfl⟩
  have hcount : snmpAsn1EncOidCnt (subIds vb.value) = (oidOctets (subIds vb.value)).length := by
    rw [hids, length_oidOctets]
  refine ⟨?_, fun _ => ?_, ?_, ?_⟩
  · have hne : ¬ (vb.value.length = 0 ∨ false = true) := by
      rw [hids, List.length_cons] at hwords
      rintro (hzero | hfalse)
      · omega
      · exact Bool.false_ne_true hfalse
    have hfour : ¬ vb.value.length % 4 ≠ 0 := by omega
    rw [hoctets, valueValueLen, htake, h.valueLen, h.raw, if_neg hne, htype, if_neg hfour, hcount]
    rfl
  · rw [hoctets, encValue, h.raw, htype, htake, hids]
    exact writes_encOid
  · rw [hoctets, htype]
    have hread := reads_decOid hpacks (show _ ≤ snmpMaxValueSize / 4 from hfits)
      (show _ ≤ snmpMaxObjIdLen from hfits.trans (by decide))
    have hdec := (hread.mapError vbLengthErr).map ofSubIds
    rw [hback] at hdec
    exact hdec
  · rw [hoctets]
    omega

theorem coded (h : vb.Holds) : Coded vb := by
  have hvalue := h.value
  unfold ValueHolds at hvalue
  split_ifs at hvalue with hnumber hraw hnull hoid hipaddr
  · exact hnumber.elim (coded_integer h) (coded_u32 h)
  · exact coded_raw h (Or.inl hraw)
  · exact coded_null h hnull
  · exact coded_oid h hoid
  · exact coded_raw h (Or.inr hipaddr)
  · exact coded_u64 h hvalue.1

/-- The types of the agent's values are coded in one octet, so that a head
has no more of them. -/
theorem extended_type (h : vb.Holds) : extended vb.type = false := by
  have hvalue := h.value
  unfold ValueHolds at hvalue
  split_ifs at hvalue with hnumber hraw hnull hoid hipaddr
  · rcases hnumber with hinteger | hu32
    · rw [hinteger]
      rfl
    · rcases of_decide_eq_true hu32 with htype | htype | htype
      · rw [htype]
        rfl
      · rw [htype]
        rfl
      · rw [htype]
        rfl
  · rcases of_decide_eq_true hraw with htype | htype
    · rw [htype]
      rfl
    · rw [htype]
      rfl
  · rw [hnull]
    rfl
  · rw [hoid]
    rfl
  · rw [hipaddr]
    rfl
  · rw [hvalue.1]
    rfl

/-- A varbind that can be appended: one of the agent, or an exception. -/
structure Sent (vb : SnmpVarbind) : Prop where
  packs : Packs vb.oid
  oidLen : vb.oid.length ≤ snmpMaxObjIdLen
  type : extended vb.type = false
  length : valueValueLen vb = .ok (valueOctets vb.type vb.value).length
  enc : valueOctets vb.type vb.value ≠ [] →
    Writes (encValue vb (valueOctets vb.type vb.value).length) (valueOctets vb.type vb.value) ()
  short : (valueOctets vb.type vb.value).length ≤ 160

theorem SnmpVarbind.Holds.sent (h : vb.Holds) : Sent vb :=
  ⟨h.packs, h.oidLen, extended_type h, (coded h).length, (coded h).enc, (coded h).short⟩

/-! ## A varbind -/

/-- How many octets a sender codes the three lengths of a varbind in. -/
structure LengthLens where
  vbLenLen : ℕ
  oidLenLen : ℕ
  valueLenLen : ℕ

/-- The octets of a varbind behind the head of its sequence, where its name
and its value have lengths of so many octets. -/
def bodyCoding (oidLenLen valueLenLen : ℕ) (vb : SnmpVarbind) : List UInt8 :=
  headOctets asn1ObjectId oidLenLen (oidOctets vb.oid).length ++
    (oidOctets vb.oid ++
      (headOctets vb.type valueLenLen (valueOctets vb.type vb.value).length ++
        valueOctets vb.type vb.value))

/-- The octets of a varbind, as a sender codes it. -/
def varbindCoding (lens : LengthLens) (vb : SnmpVarbind) : List UInt8 :=
  headOctets asn1Sequence lens.vbLenLen (bodyCoding lens.oidLenLen lens.valueLenLen vb).length ++
    bodyCoding lens.oidLenLen lens.valueLenLen vb

/-- The octets of a varbind behind the head of its sequence, as the agent
codes it: no length has more octets than it needs. -/
def bodyOctets (vb : SnmpVarbind) : List UInt8 :=
  bodyCoding (snmpAsn1EncLengthCnt (oidOctets vb.oid).length)
    (snmpAsn1EncLengthCnt (valueOctets vb.type vb.value).length) vb

/-- The octets that the lengths have in the agent's own coding, which are as
few as possible. -/
def ownLens (vb : SnmpVarbind) : LengthLens :=
  ⟨snmpAsn1EncLengthCnt (bodyOctets vb).length, snmpAsn1EncLengthCnt (oidOctets vb.oid).length,
    snmpAsn1EncLengthCnt (valueOctets vb.type vb.value).length⟩

/-- **The octets of a varbind**, as the agent codes it: no length takes more
octets than it needs. -/
def varbindOctets (vb : SnmpVarbind) : List UInt8 := varbindCoding (ownLens vb) vb

/-- The lengths of a sender are legal: each has as many octets as it needs
or more, up to the 128 that a head can tell, and none is 65535 or more. -/
structure Legal (lens : LengthLens) (vb : SnmpVarbind) : Prop where
  sequence : snmpAsn1EncLengthCnt (bodyCoding lens.oidLenLen lens.valueLenLen vb).length ≤
    lens.vbLenLen ∧ lens.vbLenLen ≤ 128
  name : snmpAsn1EncLengthCnt (oidOctets vb.oid).length ≤ lens.oidLenLen ∧ lens.oidLenLen ≤ 128
  value : snmpAsn1EncLengthCnt (valueOctets vb.type vb.value).length ≤ lens.valueLenLen ∧
    lens.valueLenLen ≤ 128
  short : (bodyCoding lens.oidLenLen lens.valueLenLen vb).length < 0xFFFF

/-- The lengths of a varbind are those of its octets. -/
structure Lengths (vb : SnmpVarbind) : Prop where
  length : snmpVarbindLength vb = .ok ⟨snmpAsn1EncLengthCnt (bodyOctets vb).length,
    (bodyOctets vb).length, snmpAsn1EncLengthCnt (oidOctets vb.oid).length,
    (oidOctets vb.oid).length, snmpAsn1EncLengthCnt (valueOctets vb.type vb.value).length,
    (valueOctets vb.type vb.value).length⟩
  oid : 0 < (oidOctets vb.oid).length ∧ (oidOctets vb.oid).length ≤ 241
  body : (bodyOctets vb).length = 1 + snmpAsn1EncLengthCnt (oidOctets vb.oid).length +
    (oidOctets vb.oid).length + 1 + snmpAsn1EncLengthCnt (valueOctets vb.type vb.value).length +
    (valueOctets vb.type vb.value).length
  short : (bodyOctets vb).length ≤ 409

theorem encLengthCnt_le (n : ℕ) : 0 < snmpAsn1EncLengthCnt n ∧ snmpAsn1EncLengthCnt n ≤ 3 := by
  unfold snmpAsn1EncLengthCnt
  split_ifs <;> decide

theorem length_bodyCoding (vb : SnmpVarbind) {oidLenLen valueLenLen : ℕ} (hoid : 0 < oidLenLen)
    (hvalue : 0 < valueLenLen) : (bodyCoding oidLenLen valueLenLen vb).length =
      1 + oidLenLen + (oidOctets vb.oid).length + 1 + valueLenLen +
        (valueOctets vb.type vb.value).length := by
  rw [bodyCoding, List.length_append, List.length_append, List.length_append,
    length_headOctets _ _ hoid, length_headOctets _ _ hvalue]
  omega

theorem length_varbindCoding {lens : LengthLens} (vb : SnmpVarbind) (h : 0 < lens.vbLenLen) :
    (varbindCoding lens vb).length =
      1 + lens.vbLenLen + (bodyCoding lens.oidLenLen lens.valueLenLen vb).length := by
  rw [varbindCoding, List.length_append, length_headOctets _ _ h]

theorem length_varbindOctets (vb : SnmpVarbind) : (varbindOctets vb).length =
    1 + snmpAsn1EncLengthCnt (bodyOctets vb).length + (bodyOctets vb).length :=
  length_varbindCoding vb (encLengthCnt_le _).1

theorem lengths (h : Sent vb) : Lengths vb := by
  obtain ⟨hpos, hle⟩ := length_oidOctets_le h.packs
  have hshort := h.short
  have hoidLen := h.oidLen
  obtain ⟨hone, hoidCnt⟩ := encLengthCnt_le (oidOctets vb.oid).length
  obtain ⟨htwo, hvalueCnt⟩ := encLengthCnt_le (valueOctets vb.type vb.value).length
  have hoid : (oidOctets vb.oid).length ≤ 241 := by
    have hfifty : vb.oid.length ≤ 50 := hoidLen
    omega
  have hbody := length_bodyCoding vb hone htwo
  rw [← bodyOctets] at hbody
  have hcount : snmpAsn1EncOidCnt vb.oid = (oidOctets vb.oid).length := by
    match vb.oid, h.packs with
    | id₀ :: id₁ :: oid, _ => exact (length_oidOctets id₀ id₁ oid).symm
  refine ⟨?_, ⟨hpos, hoid⟩, hbody, by omega⟩
  rw [snmpVarbindLength, h.length, hcount, hbody]
  rfl

/-- **A varbind is appended as its octets**, where there is room for all of
them, and else not at all. -/
theorem writes_append (h : Sent vb) :
    Writes (snmpAppendOutboundVarbind vb) (varbindOctets vb) () := by
  have hlengths := lengths h
  obtain ⟨hpos, hle⟩ := hlengths.oid
  have hshort := hlengths.short
  have hvalue := h.short
  rw [snmpAppendOutboundVarbind, hlengths.length]
  refine Writes.left fun n hn => ?_
  rw [length_varbindOctets] at hn
  rw [if_neg (by dsimp only; omega)]
  refine Writes.mapError _ ?_
  have hsequence := writes_encTlv asn1Sequence rfl (le_refl _)
    (show (bodyOctets vb).length < 2 ^ 16 by omega)
  have hname := writes_encTlv asn1ObjectId rfl (le_refl _)
    (show (oidOctets vb.oid).length < 2 ^ 16 by omega)
  have htype := writes_encTlv vb.type h.type (le_refl _)
    (show (valueOctets vb.type vb.value).length < 2 ^ 16 by omega)
  have hoid : Writes (snmpAsn1EncOid vb.oid) (oidOctets vb.oid) () := by
    match vb.oid, h.packs with
    | id₀ :: id₁ :: oid, _ => exact writes_encOid
  refine hsequence.bind (hname.bind (hoid.bind (htype.bind ?_)))
  by_cases hempty : valueOctets vb.type vb.value = []
  · rw [hempty]
    exact Writes.pure ()
  · rw [if_pos (List.length_pos_iff.2 hempty)]
    exact h.enc hempty

/-- The lengths of the agent's own coding are legal: each has just as many
octets as it needs. -/
theorem legal_own (h : Sent vb) : Legal (ownLens vb) vb := by
  obtain ⟨-, hle⟩ := (lengths h).oid
  have hshort := (lengths h).short
  exact ⟨⟨le_refl _, (encLengthCnt_le _).2.trans (by decide)⟩,
    ⟨le_refl _, (encLengthCnt_le _).2.trans (by decide)⟩,
    ⟨le_refl _, (encLengthCnt_le _).2.trans (by decide)⟩,
    show (bodyOctets vb).length < 0xFFFF by omega⟩

/-- A varbind is read up to its value, and then the value, whatever legal
lengths its sender has coded. -/
theorem reads_head (h : Sent vb) {lens : LengthLens} (hlens : Legal lens vb) {w : SnmpVarbind}
    {f : List UInt32 × Tlv → Code VbErr UInt8 SnmpVarbind}
    (hvalue : Reads (f (vb.oid, ⟨vb.type, 1, lens.valueLenLen, (valueOctets vb.type vb.value).length⟩))
      (valueOctets vb.type vb.value) w) :
    Reads (decHead >>= f) (varbindCoding lens vb) w := by
  obtain ⟨hvb, hoid, hval, hshort⟩ := hlens
  have hname : 0 < lens.oidLenLen := (encLengthCnt_le _).1.trans_le hoid.1
  have htwo : 0 < lens.valueLenLen := (encLengthCnt_le _).1.trans_le hval.1
  have hbody := length_bodyCoding vb hname htwo
  have hsequence := reads_decTlv asn1Sequence rfl hvb.1 hvb.2 hshort
  have hoidHead := reads_decTlv asn1ObjectId rfl hoid.1 hoid.2
    (show (oidOctets vb.oid).length < 0xFFFF by omega)
  have htype := reads_decTlv vb.type h.type hval.1 hval.2
    (show (valueOctets vb.type vb.value).length < 0xFFFF by omega)
  have hids := (reads_decOid h.packs h.oidLen h.oidLen).mapError vbParseExec
  rw [decHead, bind_assoc]
  refine (hsequence.mapError vbParseExec).bind ?_
  rw [bind_assoc]
  refine Reads.left fun n hn => ?_
  rw [if_neg (not_not_intro ⟨rfl, hn⟩), bodyCoding, decName, bind_assoc, bind_assoc]
  -- the head of the name; the value is behind it
  refine (hoidHead.mapError vbParseExec).bind ?_
  rw [bind_assoc]
  refine Reads.left fun n hn => ?_
  have hrest : (oidOctets vb.oid).length < n := by
    rw [List.length_append, List.length_append, length_headOctets _ _ htwo] at hn
    omega
  have hinside : Tlv.length ⟨asn1ObjectId, 1, lens.oidLenLen, (oidOctets vb.oid).length⟩ <
      (bodyCoding lens.oidLenLen lens.valueLenLen vb).length := by
    simp only [Tlv.length]
    omega
  rw [if_neg (not_not_intro ⟨rfl, hinside, hrest⟩), bind_assoc]
  refine hids.bind ?_
  rw [pure_bind]
  dsimp only
  rw [bind_assoc]
  refine (htype.mapError vbParseExec).bind ?_
  rw [bind_assoc]
  refine Reads.left fun n hn => ?_
  have hexact : Tlv.length ⟨vb.type, 1, lens.valueLenLen, (valueOctets vb.type vb.value).length⟩ =
      (bodyCoding lens.oidLenLen lens.valueLenLen vb).length -
        Tlv.length ⟨asn1ObjectId, 1, lens.oidLenLen, (oidOctets vb.oid).length⟩ := by
    simp only [Tlv.length]
    omega
  rw [if_neg (not_not_intro ⟨hexact, hn⟩), pure_bind]
  exact hvalue

/-- **The enumerator reads it from there**, whoever has coded it, with type,
name and value. -/
theorem reads_varbind (h : vb.Holds) {lens : LengthLens} (hlens : Legal lens vb) :
    Reads (decVarbind true) (varbindCoding lens vb) vb := by
  refine reads_head h.sent hlens ?_
  have hvb : (⟨vb.oid, vb.type, false, vb.value.length, vb.value⟩ : SnmpVarbind) = vb := by
    rw [← h.raw, ← h.valueLen]
  have hread := (coded h).dec.map
    fun bytes => (⟨vb.oid, vb.type, false, bytes.length, bytes⟩ : SnmpVarbind)
  rwa [hvb] at hread

/-! ## A message -/

/-- What the enumerator answers, one varbind behind the other, up to the
end of its stream. -/
inductive Enumerates : Enumerator → List SnmpVarbind → Prop
  | done {e : Enumerator} (h : snmpVbEnumeratorGetNext true e = (.error .eovb, e)) : Enumerates e []
  | next {e e' : Enumerator} {vb : SnmpVarbind} {vbs : List SnmpVarbind}
      (h : snmpVbEnumeratorGetNext true e = (.ok vb, e')) (hrest : Enumerates e' vbs) :
      Enumerates e (vb :: vbs)

theorem varbindCoding_pos (lens : LengthLens) (vb : SnmpVarbind) :
    0 < (varbindCoding lens vb).length := by
  rw [varbindCoding, List.length_append, headOctets, List.length_cons]
  omega

/-- The enumerator passes the varbind at the head of its stream. -/
theorem getNext_reads {value : Bool} {w : SnmpVarbind} {e : Enumerator} {lens : LengthLens}
    {rest : List UInt8} (hread : Reads (decVarbind value) (varbindCoding lens vb) w)
    (hs : e.pbufStream.Within) (hwindow : e.pbufStream.window = varbindCoding lens vb ++ rest) :
    snmpVbEnumeratorGetNext value e =
      (.ok w, ⟨e.pbufStream.skip (varbindCoding lens vb).length, e.varbindCount + 1⟩) := by
  have hpos := varbindCoding_pos lens vb
  have hne : e.pbufStream.length ≠ 0 := by
    rw [← Cursor.length_window hs, hwindow, List.length_append]
    omega
  rw [snmpVbEnumeratorGetNext, if_neg hne, hread _ rest hs hwindow]

/-- Octets that a sender codes varbinds in, one behind the other, each with
legal lengths of its own. -/
inductive Codes : List SnmpVarbind → List UInt8 → Prop
  | nil : Codes [] []
  | cons {vb : SnmpVarbind} {vbs : List SnmpVarbind} {octets : List UInt8} (lens : LengthLens)
      (hlens : Legal lens vb) (hrest : Codes vbs octets) :
      Codes (vb :: vbs) (varbindCoding lens vb ++ octets)

/-- The agent is one of the senders: what it appends itself is a coding of
its varbinds. -/
theorem codes_own (hvbs : ∀ vb ∈ vbs, Sent vb) : Codes vbs (vbs.flatMap varbindOctets) := by
  induction vbs with
  | nil => exact .nil
  | cons vb vbs ih =>
    exact .cons (ownLens vb) (legal_own (hvbs vb List.mem_cons_self))
      (ih fun vb' h => hvbs vb' (List.mem_cons_of_mem _ h))

/-- No varbind is without octets, whoever has coded it. -/
theorem Codes.length_le {octets : List UInt8} (h : Codes vbs octets) :
    vbs.length ≤ octets.length := by
  induction h with
  | nil => exact Nat.zero_le _
  | @cons vb vbs octets lens hlens hrest ih =>
    have hpos := varbindCoding_pos lens vb
    rw [List.length_cons, List.length_append]
    omega

/-- The varbind at the head of a stream, which has been coded by anybody,
is what the enumerator answers, and the others are behind it. -/
theorem getNext_codes {e : Enumerator} (hvb : vb.Holds) (hs : e.pbufStream.Within)
    (hcodes : Codes (vb :: vbs) e.pbufStream.window) : ∃ e',
    snmpVbEnumeratorGetNext true e = (.ok vb, e') ∧ e'.pbufStream.Within ∧
      Codes vbs e'.pbufStream.window ∧ e'.varbindCount = e.varbindCount + 1 := by
  generalize hwindow : e.pbufStream.window = octets at hcodes
  cases hcodes with
  | @cons _ _ octets lens hlens hrest =>
    have hlen : (varbindCoding lens vb).length ≤ e.pbufStream.length := by
      rw [← Cursor.length_window hs, hwindow, List.length_append]
      omega
    refine ⟨_, getNext_reads (reads_varbind hvb hlens) hs hwindow, hs.skip hlen, ?_, rfl⟩
    show Codes vbs (e.pbufStream.skip _).window
    rwa [Cursor.window_skip_append hwindow]

/-- The end of the varbinds is the end of the stream. -/
theorem getNext_done {value : Bool} {e : Enumerator} (hs : e.pbufStream.Within)
    (hcodes : Codes [] e.pbufStream.window) :
    snmpVbEnumeratorGetNext value e = (.error .eovb, e) := by
  generalize hwindow : e.pbufStream.window = octets at hcodes
  cases hcodes
  have hempty := Cursor.length_window hs
  rw [hwindow] at hempty
  exact if_pos hempty.symm

/-- **A stream of varbinds is enumerated**, whoever has coded it: each in
its turn, and behind the last the end of the list. -/
theorem enumerates {e : Enumerator} (hs : e.pbufStream.Within) (hvbs : ∀ vb ∈ vbs, vb.Holds)
    (hcodes : Codes vbs e.pbufStream.window) : Enumerates e vbs := by
  induction vbs generalizing e with
  | nil => exact .done (getNext_done hs hcodes)
  | cons vb vbs ih =>
    obtain ⟨e', hnext, hwithin, hrest, -⟩ := getNext_codes (hvbs vb List.mem_cons_self) hs hcodes
    exact .next hnext (ih hwithin (fun vb' h => hvbs vb' (List.mem_cons_of_mem _ h)) hrest)

/-- Varbinds appended one behind the other, up to the first that fails. -/
def appendAll : List SnmpVarbind → Asn1 Unit := fun vbs => vbs.forM snmpAppendOutboundVarbind

/-- A varbind that has no room leaves the stream as it is. -/
theorem append_full (h : Sent vb) {s : Stream} (hfull : s.length < (varbindOctets vb).length) :
    exec (snmpAppendOutboundVarbind vb) s = (.error .buf, s) := by
  have hlong : 1 + snmpAsn1EncLengthCnt (bodyOctets vb).length + (bodyOctets vb).length > s.length := by
    rwa [length_varbindOctets] at hfull
  rw [snmpAppendOutboundVarbind, (lengths h).length]
  dsimp only
  rw [exec_bind_ok (exec_left s), if_pos hlong]
  rfl

/-- The varbinds that have room are written, and no others. -/
theorem exec_appendAll (hvbs : ∀ vb ∈ vbs, Sent vb) {s : Stream} (hs : s.Within) :
    ∃ front back, vbs = front ++ back ∧ (front.flatMap varbindOctets).length ≤ s.length ∧
      exec (appendAll vbs) s = (if back = [] then .ok () else .error .buf,
        s.put (front.flatMap varbindOctets)) ∧
      ∀ vb ∈ back.head?, (s.put (front.flatMap varbindOctets)).length <
        (varbindOctets vb).length := by
  induction vbs generalizing s with
  | nil =>
    refine ⟨[], [], rfl, Nat.zero_le _, ?_, by simp⟩
    rw [if_pos rfl]
    exact congrArg _ s.put_nil.symm
  | cons vb vbs ih =>
    have hvb := hvbs vb List.mem_cons_self
    have hrun : exec (appendAll (vb :: vbs)) s =
        exec (snmpAppendOutboundVarbind vb >>= fun _ => appendAll vbs) s := rfl
    by_cases hroom : (varbindOctets vb).length ≤ s.length
    · obtain ⟨front, back, hsplit, hfits, hexec, hfull⟩ :=
        ih (fun vb' h => hvbs vb' (List.mem_cons_of_mem _ h)) (hs.put hroom)
      have hleft : (front.flatMap varbindOctets).length ≤ s.length - (varbindOctets vb).length := hfits
      rw [Cursor.put_put hs hroom] at hexec hfull
      refine ⟨vb :: front, back, by rw [hsplit]; rfl, ?_, ?_, hfull⟩
      · rw [List.flatMap_cons, List.length_append]
        omega
      · rw [hrun, exec_bind_ok (writes_append hvb s hs hroom), hexec]
        rfl
    · refine ⟨[], vb :: vbs, rfl, Nat.zero_le _, ?_, ?_⟩
      · rw [hrun, exec_bind, append_full hvb (by omega), if_neg (List.cons_ne_nil _ _)]
        exact congrArg _ s.put_nil.symm
      · intro vb' hhead
        obtain rfl : vb = vb' := by simpa using hhead
        show s.length - 0 < _
        omega

/-- **What is enumerated is what was appended**: the varbinds up to the
first that has no room, of which nothing is in the message. The octets in
front of where they begin and behind where they end stay as they were. -/
theorem enumerates_append (vbs : List SnmpVarbind) (hvbs : ∀ vb ∈ vbs, vb.Holds) {s : Stream}
    (hs : s.Within) : ∃ front back t, vbs = front ++ back ∧
      exec (appendAll vbs) s = (if back = [] then .ok () else .error .buf, t) ∧
      t.cells.length = s.cells.length ∧ t.cells.take s.offset = s.cells.take s.offset ∧
      t.cells.drop t.offset = s.cells.drop t.offset ∧
      Enumerates (snmpVbEnumeratorInit t.cells s.offset (t.offset - s.offset)) front ∧
      ∀ vb ∈ back.head?, t.length < (varbindOctets vb).length := by
  obtain ⟨front, back, hsplit, hfits, hexec, hfull⟩ := exec_appendAll (fun vb h => (hvbs vb h).sent) hs
  have hin : s.offset + s.length ≤ s.cells.length := hs
  have hlength := Cursor.length_cells_put hs hfits
  refine ⟨front, back, _, hsplit, hexec, hlength, Cursor.take_put hs, Cursor.drop_put hs, ?_, hfull⟩
  have hwritten : (s.put (front.flatMap varbindOctets)).offset - s.offset =
      (front.flatMap varbindOctets).length := Nat.add_sub_cancel_left ..
  rw [hwritten]
  have hfront : ∀ vb ∈ front, vb.Holds := fun vb h =>
    hvbs vb (by rw [hsplit]; exact List.mem_append_left _ h)
  have hcodes : Codes front
      (⟨(s.put (front.flatMap varbindOctets)).cells, s.offset,
        (front.flatMap varbindOctets).length⟩ : Stream).window := by
    rw [Cursor.window_put hs hfits]
    exact codes_own fun vb h => (hfront vb h).sent
  refine enumerates ?_ hfront hcodes
  show s.offset + (front.flatMap varbindOctets).length ≤
    (s.put (front.flatMap varbindOctets)).cells.length
  rw [hlength]
  omega

/-- The name and the power of the board, in a message of 24 bytes: the
power has no room behind the name. -/
theorem enumerates_append_power : ∃ t,
    exec (appendAll [⟨[2, 7, 40, 1, 0], asn1OctetString, false, 6, [49, 53, 48, 77, 72, 122]⟩,
        ⟨[2, 7, 40, 2, 0], asn1Integer, false, 4, [159, 0, 0, 0]⟩])
      ⟨List.replicate 24 0, 0, 24⟩ = (.error .buf, t) ∧
    t.cells.length = 24 ∧ t.cells.drop t.offset = (List.replicate 24 0).drop t.offset ∧
    Enumerates (snmpVbEnumeratorInit t.cells 0 t.offset)
      [⟨[2, 7, 40, 1, 0], asn1OctetString, false, 6, [49, 53, 48, 77, 72, 122]⟩] ∧
    t.length < (varbindOctets ⟨[2, 7, 40, 2, 0], asn1Integer, false, 4, [159, 0, 0, 0]⟩).length := by
  have hholds : ∀ vb ∈ [(⟨[2, 7, 40, 1, 0], asn1OctetString, false, 6, [49, 53, 48, 77, 72, 122]⟩ :
      SnmpVarbind), ⟨[2, 7, 40, 2, 0], asn1Integer, false, 4, [159, 0, 0, 0]⟩], vb.Holds := by
    intro vb hvb
    rcases List.mem_cons.1 hvb with rfl | hvb
    · exact ⟨by decide, by decide, rfl, rfl, by decide⟩
    · obtain rfl := List.mem_singleton.1 hvb
      exact ⟨by decide, by decide, rfl, rfl, by decide⟩
  obtain ⟨front, back, t, hsplit, hexec, hlength, -, hback, hread, hfull⟩ := enumerates_append _ hholds
    (show Cursor.Within ⟨List.replicate 24 0, 0, 24⟩ from show 0 + 24 ≤ _ by decide)
  match front, back, hsplit with
  | [], _, rfl =>
    -- but a varbind has been appended
    obtain rfl := congrArg Prod.snd hexec
    cases hread with
    | done h => exact absurd (congrArg Prod.fst h) (by decide)
  | [_], [_], rfl => exact ⟨t, hexec, hlength, hback, hread, hfull _ rfl⟩
  | [_, _], [], rfl =>
    have hok : (exec (appendAll _) _).1 = Except.ok () := congrArg Prod.fst hexec
    exact absurd hok (by decide)

end Snmp

end SlipBoard
