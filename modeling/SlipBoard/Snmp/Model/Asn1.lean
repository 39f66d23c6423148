import SlipBoard.Common.Bytes
import SlipBoard.Common.Cursor
/-!
# SNMP — the codes of ASN.1

`snmp_pbuf_stream.c` and `snmp_asn1.c` of lwIP. What is read of a chain
of pbufs, byte by byte, is the list of its bytes wherever the pbufs end,
and a stream is a window of it. A code ends with
`ERR_OK`, or with one of `Err`, and leaves the stream where it got to;
what it stores through a pointer it answers, where it ends well.

The loops over the octets of a number are the same for 32 and for 64
bits, signed or not: a signed number is its bit pattern.
-/

namespace SlipBoard

namespace Snmp

/-- The members of `err_t` that are answered here. `outside` is none of
them: it is a store outside of the caller's array, or a read outside of a
pbuf. -/
inductive Err
  | arg
  | val
  | buf
  | mem
  | outside
  deriving DecidableEq

/-- `struct snmp_pbuf_stream`. -/
abbrev Stream := Cursor UInt8

abbrev Asn1 := Code Err UInt8

/-- `SNMP_ASN1_TYPE_INTEGER`. -/
abbrev asn1Integer : UInt8 := 2

/-- `SNMP_ASN1_TYPE_OCTET_STRING`. -/
abbrev asn1OctetString : UInt8 := 4

/-! ## snmp_pbuf_stream -/

/-- `snmp_pbuf_stream_read`. -/
def snmpPbufStreamRead : Asn1 UInt8 := fun s =>
  if s.length = 0 then (.error .buf, s)
  else match s.cells[s.offset]? with
    | none => (.error .buf, s)
    | some data => (.ok data, s.skip 1)

/-- `snmp_pbuf_stream_writebuf`. `pbuf_take_at` takes nothing at the end
of the chain, not even no bytes. -/
def snmpPbufStreamWritebuf (buf : List UInt8) : Asn1 Unit := fun s =>
  if s.length < buf.length then (.error .buf, s)
  else if s.offset < s.cells.length ∧ s.offset + buf.length ≤ s.cells.length then
    (.ok (), s.put buf)
  else (.error .buf, s)

/-- `snmp_pbuf_stream_write`. -/
def snmpPbufStreamWrite (data : UInt8) : Asn1 Unit := snmpPbufStreamWritebuf [data]

/-- `snmp_pbuf_stream_seek`, forwards. -/
def snmpPbufStreamSeek (offset : ℕ) : Asn1 Unit := fun s =>
  if offset > s.length then (.error .arg, s) else (.ok (), s.skip offset)

/-! ## The head of a value -/

/-- `struct snmp_asn1_tlv`. -/
structure Tlv where
  type : UInt8
  typeLen : ℕ
  lengthLen : ℕ
  valueLen : ℕ
  deriving DecidableEq

/-- `SNMP_ASN1_TLV_LENGTH`. -/
def Tlv.length (tlv : Tlv) : ℕ := tlv.typeLen + tlv.lengthLen + tlv.valueLen

/-- The type is coded in more bytes. -/
def extended (type : UInt8) : Bool := type &&& 0x1F = 0x1F

/-- `snmp_asn1_enc_length_cnt`. -/
def snmpAsn1EncLengthCnt (length : ℕ) : ℕ :=
  if length < 0x80 then 1 else if length < 0x100 then 2 else 3

/-- The bytes of a length but the last, `left` of them and that one to
come. -/
def encLength (valueLen : ℕ) : ℕ → Asn1 Unit
  | left + 2 => do
    snmpPbufStreamWrite (if left = 0 then UInt8.ofNat (valueLen >>> 8) else 0)
    encLength valueLen (left + 1)
  | _ => pure ()

/-- `snmp_ans1_enc_tlv`: the head with the lengths it was coded with. -/
def snmpAns1EncTlv (tlv : Tlv) : Asn1 Tlv := do
  if extended tlv.type then throw .arg
  if tlv.typeLen ≠ 0 then throw .arg
  snmpPbufStreamWrite tlv.type
  let required := if tlv.valueLen ≤ 127 then 1 else if tlv.valueLen ≤ 255 then 2 else 3
  if tlv.lengthLen > 0 ∧ tlv.lengthLen < required then throw .arg
  let required := if tlv.lengthLen > 0 then tlv.lengthLen else required
  if required > 1 then
    snmpPbufStreamWrite (0x80 ||| UInt8.ofNat (required - 1))
    encLength tlv.valueLen (required - 1)
  snmpPbufStreamWrite (UInt8.ofNat tlv.valueLen)
  return { tlv with typeLen := 1, lengthLen := required }

/-- The bytes of a length in the long form. -/
def decLength : ℕ → ℕ → Asn1 ℕ
  | 0, valueLen => pure valueLen
  | left + 1, valueLen => do
    if valueLen > 0xFF then throw .val
    let data ← snmpPbufStreamRead
    let valueLen := valueLen <<< 8 ||| data.toNat
    if valueLen = 0xFFFF then throw .val
    decLength left valueLen

/-- `snmp_asn1_dec_tlv`. -/
def snmpAsn1DecTlv : Asn1 Tlv := do
  let type ← snmpPbufStreamRead
  if extended type then throw .val
  let data ← snmpPbufStreamRead
  if data < 0x80 then return ⟨type, 1, 1, data.toNat⟩
  else if data > 0x80 then
    let lengthBytes := (data - 0x80).toNat
    if lengthBytes > (← Code.left) then throw .val
    let valueLen ← decLength lengthBytes 0
    return ⟨type, 1, lengthBytes + 1, valueLen⟩
  else throw .val

/-! ## Numbers -/

/-- The octets of a number but the last, `octets` of them and that one to
come. -/
def encOctets (value : ℕ) : ℕ → Asn1 Unit
  | octets + 2 => do
    snmpPbufStreamWrite (UInt8.ofNat (value >>> (8 * (octets + 1))))
    encOctets value (octets + 1)
  | _ => pure ()

/-- The octets of a number that is shifted in, in `w` bits. -/
def decOctets (w : ℕ) : ℕ → ℕ → Asn1 ℕ
  | 0, value => pure value
  | len + 1, value => do
    let data ← snmpPbufStreamRead
    decOctets w len ((value <<< 8) % 2 ^ w ||| data.toNat)

/-- The encoder of an unsigned number of at most `most` octets, the first
of them a sign. -/
def encUnsigned (most octets value : ℕ) : Asn1 Unit := do
  if octets > most then throw .arg
  if octets = most then snmpPbufStreamWrite 0
  encOctets value (if octets = most then octets - 1 else octets)
  snmpPbufStreamWrite (UInt8.ofNat value)

/-- The decoder of an unsigned number of at most `most` octets. -/
def decUnsigned (w most len : ℕ) : Asn1 ℕ :=
  if len > 0 ∧ len ≤ most then do
    let data ← snmpPbufStreamRead
    if len = most ∧ data = 0 ∨ len < most ∧ data &&& 0x80 = 0 then
      decOctets w (len - 1) data.toNat
    else throw .val
  else throw .val

/-- `snmp_asn1_enc_u32t_cnt`. -/
def snmpAsn1EncU32tCnt (value : ℕ) : ℕ :=
  if value < 0x80 then 1
  else if value < 0x8000 then 2
  else if value < 0x800000 then 3
  else if value < 0x80000000 then 4
  else 5

/-- `snmp_asn1_enc_u32t`. -/
def snmpAsn1EncU32t (octets value : ℕ) : Asn1 Unit := encUnsigned 5 octets value

/-- `snmp_asn1_dec_u32t`. -/
def snmpAsn1DecU32t (len : ℕ) : Asn1 ℕ := decUnsigned 32 5 len

/-- `snmp_asn1_enc_u64t_cnt`. -/
def snmpAsn1EncU64tCnt (value : ℕ) : ℕ :=
  if value >>> 32 = 0 then snmpAsn1EncU32tCnt value else snmpAsn1EncU32tCnt (value >>> 32) + 4

/-- `snmp_asn1_enc_u64t`. -/
def snmpAsn1EncU64t (octets value : ℕ) : Asn1 Unit := encUnsigned 9 octets value

/-- `snmp_asn1_dec_u64t`. -/
def snmpAsn1DecU64t (len : ℕ) : Asn1 ℕ := decUnsigned 64 9 len

/-- `snmp_asn1_enc_s32t_cnt`, of a bit pattern. -/
def snmpAsn1EncS32tCnt (value : ℕ) : ℕ :=
  let value := if value ≥ 2 ^ 31 then 2 ^ 32 - 1 - value else value
  if value < 0x80 then 1
  else if value < 0x8000 then 2
  else if value < 0x800000 then 3
  else 4

/-- `snmp_asn1_enc_s32t`. -/
def snmpAsn1EncS32t (octets value : ℕ) : Asn1 Unit := do
  encOctets value octets
  snmpPbufStreamWrite (UInt8.ofNat value)

/-- `snmp_asn1_dec_s32t`. -/
def snmpAsn1DecS32t (len : ℕ) : Asn1 ℕ :=
  if len > 0 ∧ len < 5 then do
    let data ← snmpPbufStreamRead
    let sign := if data &&& 0x80 ≠ 0 then 2 ^ 32 - 1 else 0
    decOctets 32 (len - 1) ((sign <<< 8) % 2 ^ 32 ||| data.toNat)
  else throw .val

/-! ## Object identifiers -/

/-- The octets of a sub-identifier but the last, from the shift of
`7 * groups` down. -/
def encSubId (subId : UInt32) : ℕ → Bool → Asn1 Unit
  | 0, _ => pure ()
  | groups + 1, tail => do
    let code := UInt8.ofNat (subId.toNat >>> (7 * (groups + 1)))
    if code ≠ 0 ∨ tail then
      snmpPbufStreamWrite (code ||| 0x80)
      encSubId subId groups true
    else encSubId subId groups false

/-- `snmp_asn1_enc_oid`. -/
def snmpAsn1EncOid : List UInt32 → Asn1 Unit
  | id₀ :: id₁ :: oid => do
    snmpPbufStreamWrite (id₀ * 40 + id₁).toUInt8
    oid.forM fun subId => do
      encSubId subId 4 false
      snmpPbufStreamWrite (subId.toUInt8 &&& 0x7F)
  | _ => throw .arg

/-- The loop of `snmp_asn1_enc_oid_cnt` over the rest of a
sub-identifier, which has five groups of bits. -/
def subIdCnt : ℕ → ℕ → ℕ
  | 0, _ => 0
  | groups + 1, subId => if subId > 0 then 1 + subIdCnt groups (subId >>> 7) else 0

/-- `snmp_asn1_enc_oid_cnt`. -/
def snmpAsn1EncOidCnt (oid : List UInt32) : ℕ :=
  let rest := fun oid : List UInt32 =>
    (oid.map fun subId => 1 + subIdCnt 5 (subId.toNat >>> 7)).sum
  if oid.length > 1 then 1 + rest (oid.drop 2) else rest oid

/-- The octets of a sub-identifier behind one that says more follow: the
number, and what is left of `len`. -/
def decMore : ℕ → UInt8 → UInt32 → Asn1 (UInt32 × ℕ)
  | len, data, subId =>
    if data &&& 0x80 = 0 then pure (subId, len)
    else match len with
      | 0 => throw .val
      | len + 1 => do
        let data ← snmpPbufStreamRead
        decMore len data (subId <<< 7 + (data &&& 0x7F).toUInt32)

/-- The loop of `snmp_asn1_dec_oid`, which takes an octet each round. -/
def decSubIds (room oidMaxLen : ℕ) : ℕ → ℕ → List UInt32 → Asn1 (List UInt32)
  | 0, _, oid => pure oid
  | rounds + 1, len, oid =>
    if len > 0 ∧ oid.length < oidMaxLen then do
      let data ← snmpPbufStreamRead
      let (subId, len) ← decMore (len - 1) data (data &&& 0x7F).toUInt32
      if oid.length ≥ room then throw .outside
      decSubIds room oidMaxLen rounds len (oid ++ [subId])
    else if len > 0 then throw .mem
    else pure oid

/-- `snmp_asn1_dec_oid`, into an array of `room` sub-identifiers. -/
def snmpAsn1DecOid (room len oidMaxLen : ℕ) : Asn1 (List UInt32) :=
  if len > 0 then do
    if oidMaxLen < 2 then throw .mem
    let data ← snmpPbufStreamRead
    let first : List UInt32 :=
      if data = 0x2B then [1, 3]
      else if data < 40 then [0, data.toUInt32]
      else if data < 80 then [1, (data - 40).toUInt32]
      else [2, (data - 80).toUInt32]
    if room < 2 then throw .outside
    decSubIds room oidMaxLen len (len - 1) first
  else pure []

/-! ## Raw data -/

/-- `snmp_asn1_enc_raw`. -/
def snmpAsn1EncRaw (raw : List UInt8) : Asn1 Unit := snmpPbufStreamWritebuf raw

/-- The loop of `snmp_asn1_dec_raw`. -/
def decRaw : ℕ → Asn1 (List UInt8)
  | 0 => pure []
  | len + 1 => do
    let data ← snmpPbufStreamRead
    let buf ← decRaw len
    return data :: buf

/-- `snmp_asn1_dec_raw`. -/
def snmpAsn1DecRaw (len bufMaxLen : ℕ) : Asn1 (List UInt8) :=
  if len > bufMaxLen then throw .mem else decRaw len

end Snmp

end SlipBoard
