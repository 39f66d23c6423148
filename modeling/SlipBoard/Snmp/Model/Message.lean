import SlipBoard.Snmp.Model.Asn1
/-!
# SNMP — the varbinds of a message

`snmp_varbind_length`, `snmp_append_outbound_varbind` and
`snmp_vb_enumerator_get_next` of `snmp_msg.c`. What `value` points to is
the list of its bytes, in the order of the processor, and an array of the
caller's of `SNMP_MAX_VALUE_SIZE` bytes where a value is decoded.

The lengths of a varbind do not wrap: an object identifier has at most
255 sub-identifiers, and a value fewer than `2^14` bytes.
-/

namespace SlipBoard

namespace Snmp

open Bytes

/-- `SNMP_MAX_OBJ_ID_LEN`. -/
abbrev snmpMaxObjIdLen : ℕ := 50

/-- `SNMP_MAX_VALUE_SIZE`, of `lwipopts.h`. -/
abbrev snmpMaxValueSize : ℕ := 128

abbrev asn1Null : UInt8 := 5
abbrev asn1ObjectId : UInt8 := 6
abbrev asn1Sequence : UInt8 := 0x30
abbrev asn1Ipaddr : UInt8 := 0x40
abbrev asn1Counter : UInt8 := 0x41
abbrev asn1Gauge : UInt8 := 0x42
abbrev asn1Timeticks : UInt8 := 0x43
abbrev asn1Opaque : UInt8 := 0x44
abbrev asn1Counter64 : UInt8 := 0x46

/-- `struct snmp_varbind`. `raw` is `SNMP_GET_VALUE_RAW_DATA`, which the
source keeps in `value_len`. -/
structure SnmpVarbind where
  oid : List UInt32
  type : UInt8
  raw : Bool
  valueLen : ℕ
  value : List UInt8
  deriving DecidableEq

/-- The number `value` points to. -/
def SnmpVarbind.number (vb : SnmpVarbind) (bytes : ℕ) : ℕ := Bytes.value (vb.value.take bytes).reverse

/-- The sub-identifiers an array of bytes holds. -/
def subIds : List UInt8 → List UInt32
  | b₀ :: b₁ :: b₂ :: b₃ :: bytes =>
    UInt32.ofNat (Bytes.value [b₃, b₂, b₁, b₀]) :: subIds bytes
  | _ => []

/-- Sub-identifiers as an array of bytes. -/
def ofSubIds (oid : List UInt32) : List UInt8 := oid.flatMap fun subId => littleEndian 4 subId.toNat

/-- The types of 32 bits without a sign. -/
def isU32 (type : UInt8) : Bool := type = asn1Counter ∨ type = asn1Gauge ∨ type = asn1Timeticks

/-- The types that are raw data, of any length. -/
def isRaw (type : UInt8) : Bool := type = asn1OctetString ∨ type = asn1Opaque

/-! ## Outbound -/

/-- `struct snmp_varbind_len`. -/
structure VarbindLen where
  vbLenLen : ℕ
  vbValueLen : ℕ
  oidLenLen : ℕ
  oidValueLen : ℕ
  valueLenLen : ℕ
  valueValueLen : ℕ
  deriving DecidableEq

/-- `value_value_len`. -/
def valueValueLen (vb : SnmpVarbind) : Except Err ℕ :=
  if vb.valueLen = 0 ∨ vb.raw then .ok vb.valueLen
  else if vb.type = asn1Integer then
    if vb.valueLen ≠ 4 then .error .val else .ok (snmpAsn1EncS32tCnt (vb.number 4))
  else if isU32 vb.type then
    if vb.valueLen ≠ 4 then .error .val else .ok (snmpAsn1EncU32tCnt (vb.number 4))
  else if isRaw vb.type ∨ vb.type = asn1Ipaddr then .ok vb.valueLen
  else if vb.type = asn1Null then .error .val
  else if vb.type = asn1ObjectId then
    if vb.valueLen % 4 ≠ 0 then .error .val
    else .ok (snmpAsn1EncOidCnt (subIds (vb.value.take vb.valueLen)))
  else if vb.type = asn1Counter64 then
    if vb.valueLen ≠ 8 then .error .val else .ok (snmpAsn1EncU64tCnt (vb.number 8))
  else .error .val

/-- `snmp_varbind_length`. -/
def snmpVarbindLength (vb : SnmpVarbind) : Except Err VarbindLen := do
  let oidValueLen := snmpAsn1EncOidCnt vb.oid
  let oidLenLen := snmpAsn1EncLengthCnt oidValueLen
  let valueValueLen ← valueValueLen vb
  let valueLenLen := snmpAsn1EncLengthCnt valueValueLen
  let vbValueLen := 1 + oidLenLen + oidValueLen + 1 + valueLenLen + valueValueLen
  return ⟨snmpAsn1EncLengthCnt vbValueLen, vbValueLen, oidLenLen, oidValueLen, valueLenLen,
    valueValueLen⟩

/-- The value of a varbind, where it has octets. -/
def encValue (vb : SnmpVarbind) (valueValueLen : ℕ) : Asn1 Unit :=
  if vb.raw then snmpAsn1EncRaw (vb.value.take valueValueLen)
  else if vb.type = asn1Integer then snmpAsn1EncS32t valueValueLen (vb.number 4)
  else if isU32 vb.type then snmpAsn1EncU32t valueValueLen (vb.number 4)
  else if isRaw vb.type ∨ vb.type = asn1Ipaddr then snmpAsn1EncRaw (vb.value.take valueValueLen)
  else if vb.type = asn1ObjectId then snmpAsn1EncOid (subIds (vb.value.take vb.valueLen))
  else if vb.type = asn1Counter64 then snmpAsn1EncU64t valueValueLen (vb.number 8)
  -- `snmp_varbind_length` has refused the other types
  else pure ()

/-- What `snmp_append_outbound_varbind` appends. -/
def encVarbind (vb : SnmpVarbind) (len : VarbindLen) : Asn1 Unit := do
  let _ ← snmpAns1EncTlv ⟨asn1Sequence, 0, len.vbLenLen, len.vbValueLen⟩
  let _ ← snmpAns1EncTlv ⟨asn1ObjectId, 0, len.oidLenLen, len.oidValueLen⟩
  snmpAsn1EncOid vb.oid
  let _ ← snmpAns1EncTlv ⟨vb.type, 0, len.valueLenLen, len.valueValueLen⟩
  if len.valueValueLen > 0 then encValue vb len.valueValueLen

/-- `snmp_append_outbound_varbind`. -/
def snmpAppendOutboundVarbind (vb : SnmpVarbind) : Asn1 Unit := do
  match snmpVarbindLength vb with
  | .error err => throw err
  | .ok len =>
    if 1 + len.vbLenLen + len.vbValueLen > (← Code.left) then throw .buf
    Code.mapError (fun _ => .arg) (encVarbind vb len)

/-! ## Inbound -/

/-- `snmp_vb_enumerator_err_t`, and a store outside of an array. -/
inductive VbErr
  | eovb
  | asn1Error
  | invalidLength
  | outside
  deriving DecidableEq

/-- `VB_PARSE_EXEC`. -/
def vbParseExec : Err → VbErr
  | .outside => .outside
  | _ => .asn1Error

/-- An error of a decoder that knows the size of its array. -/
def vbLengthErr : Err → VbErr
  | .mem => .invalidLength
  | err => vbParseExec err

/-- The value of a varbind of the type `type`. -/
def decValue (type : UInt8) (len : ℕ) : Code VbErr UInt8 (List UInt8) :=
  if type = asn1Integer then do
    let v ← Code.mapError vbParseExec (snmpAsn1DecS32t len)
    return littleEndian 4 v
  else if isU32 type then do
    let v ← Code.mapError vbParseExec (snmpAsn1DecU32t len)
    return littleEndian 4 v
  else if isRaw type then Code.mapError vbLengthErr (snmpAsn1DecRaw len snmpMaxValueSize)
  else if type = asn1Null then pure []
  else if type = asn1ObjectId then do
    let oid ← Code.mapError vbLengthErr
      (snmpAsn1DecOid (snmpMaxValueSize / 4) len snmpMaxObjIdLen)
    return ofSubIds oid
  else if type = asn1Ipaddr then
    if len = 4 then Code.mapError vbParseExec (snmpAsn1DecRaw len snmpMaxValueSize)
    else throw .asn1Error
  else if type = asn1Counter64 then do
    let v ← Code.mapError vbParseExec (snmpAsn1DecU64t len)
    return littleEndian 8 v
  else throw .asn1Error

/-- The name of a varbind of `varbindLen` octets, and what the name leaves
of them. -/
def decName (varbindLen : ℕ) : Code VbErr UInt8 (List UInt32 × ℕ) := do
  let tlv ← Code.mapError vbParseExec snmpAsn1DecTlv
  if ¬ (tlv.type = asn1ObjectId ∧ tlv.length < varbindLen ∧ tlv.valueLen < (← Code.left)) then
    throw .asn1Error
  let oid ← Code.mapError vbParseExec
    (snmpAsn1DecOid snmpMaxObjIdLen tlv.valueLen snmpMaxObjIdLen)
  return (oid, varbindLen - tlv.length)

/-- A varbind up to its value: the name, and the head of the value. -/
def decHead : Code VbErr UInt8 (List UInt32 × Tlv) := do
  let tlv ← Code.mapError vbParseExec snmpAsn1DecTlv
  if ¬ (tlv.type = asn1Sequence ∧ tlv.valueLen ≤ (← Code.left)) then throw .asn1Error
  let (oid, varbindLen) ← decName tlv.valueLen
  let tlv ← Code.mapError vbParseExec snmpAsn1DecTlv
  if ¬ (tlv.length = varbindLen ∧ tlv.valueLen ≤ (← Code.left)) then throw .asn1Error
  return (oid, tlv)

/-- The value of a varbind. `value` is whether the caller has an array for
it. -/
def decRest (value : Bool) (oid : List UInt32) (tlv : Tlv) : Code VbErr UInt8 SnmpVarbind := do
  if value then
    let bytes ← decValue tlv.type tlv.valueLen
    return ⟨oid, tlv.type, false, bytes.length, bytes⟩
  else
    Code.ignore (snmpPbufStreamSeek tlv.valueLen)
    return ⟨oid, tlv.type, false, tlv.valueLen, []⟩

/-- The varbind at the head of a stream. -/
def decVarbind (value : Bool) : Code VbErr UInt8 SnmpVarbind := do
  let (oid, tlv) ← decHead
  decRest value oid tlv

/-- `struct snmp_varbind_enumerator`. -/
structure Enumerator where
  pbufStream : Stream
  varbindCount : ℕ
  deriving DecidableEq

/-- `snmp_vb_enumerator_init`. -/
def snmpVbEnumeratorInit (p : List UInt8) (offset length : ℕ) : Enumerator :=
  ⟨⟨p, offset, length⟩, 0⟩

/-- `snmp_vb_enumerator_get_next`. -/
def snmpVbEnumeratorGetNext (value : Bool) (e : Enumerator) :
    Except VbErr SnmpVarbind × Enumerator :=
  if e.pbufStream.length = 0 then (.error .eovb, e)
  else
    let (vb, pbufStream) := Code.exec (decVarbind value) e.pbufStream
    (vb, ⟨pbufStream, e.varbindCount + 1⟩)

end Snmp

end SlipBoard
