import SlipBoard.Snmp.Model.Request
/-!
# SNMP — the frame around a request

`snmp_receive`, `snmp_parse_inbound_frame`,
`snmp_prepare_outbound_frame` and `snmp_complete_outbound_frame` of
`snmp_msg.c`, without `LWIP_SNMP_V3` and without the counters. A message
comes in a chain of pbufs, each the list of its bytes, and is read as the
bytes of the chain; only `snmp_pbuf_stream_writeto` sees where a pbuf
ends. The answer has one pbuf. What `snmp_process_set_request` does is a
parameter, and what `pbuf_alloc` answers, whose bytes may be any.
-/

namespace SlipBoard

namespace Snmp

namespace Agent

/-- `SNMP_MAX_COMMUNITY_STR_LEN`. -/
abbrev snmpMaxCommunityStrLen : ℕ := 8

/-- The types of a request, with `SNMP_ASN1_DATATYPE_MASK`. -/
abbrev pduGetReq : UInt8 := 0
abbrev pduGetNextReq : UInt8 := 1
abbrev pduGetResp : UInt8 := 2
abbrev pduSetReq : UInt8 := 3
abbrev pduGetBulkReq : UInt8 := 5

/-- `SNMP_ASN1_CLASS_CONTEXT | SNMP_ASN1_CONTENTTYPE_CONSTRUCTED`. -/
abbrev context : UInt8 := 0xA0

abbrev snmpErrNoSuchName : UInt8 := 2
abbrev snmpErrBadValue : UInt8 := 3
abbrev snmpErrNotWritable : UInt8 := 17

/-- `SNMP_ERR_NOSUCHOBJECT`, `SNMP_ERR_NOSUCHINSTANCE` and
`SNMP_ERR_ENDOFMIBVIEW`. -/
def isMissing (status : UInt8) : Bool := status = 0xF0 ∨ status = 0xF1 ∨ status = 0xF2

/-- `snmp_community` and `snmp_community_write`. -/
structure Communities where
  read : List UInt8
  write : List UInt8

/-- Whether `strncmp` is 0. -/
def strncmp (s t : List UInt8) (n : ℕ) : Bool :=
  (s.takeWhile (· ≠ 0)).take n = (t.takeWhile (· ≠ 0)).take n

/-! ## Inbound -/

/-- What `IF_PARSE_EXEC` makes of an error. -/
def ifParseExec : Err → Err
  | .outside => .outside
  | _ => .arg

/-- An INTEGER of a container that has `parent` octets left, and how many
it leaves of them. -/
def decInteger (parent : ℤ) : Asn1 (ℕ × ℤ) := do
  let tlv ← snmpAsn1DecTlv
  if tlv.type ≠ asn1Integer then throw .arg
  let parent := parent - tlv.length
  if ¬ parent > 0 then throw .arg
  let value ← snmpAsn1DecS32t tlv.valueLen
  return (value, parent)

/-- The community. One that is too long is taken for none. -/
def decCommunity (parent : ℤ) : Asn1 (List UInt8) := do
  let tlv ← snmpAsn1DecTlv
  if tlv.type ≠ asn1OctetString then throw .arg
  if ¬ parent - tlv.length > 0 then throw .arg
  if tlv.valueLen > snmpMaxCommunityStrLen then
    Code.ignore (snmpPbufStreamSeek tlv.valueLen)
    return []
  else snmpAsn1DecRaw tlv.valueLen snmpMaxCommunityStrLen

/-- The requests of an agent. -/
def isRequest (version : ℕ) (type : UInt8) : Bool :=
  type = context ||| pduGetReq ∨ type = context ||| pduGetNextReq ∨
    (type = context ||| pduGetBulkReq ∧ ¬ version < snmpVersion2c) ∨ type = context ||| pduSetReq

/-- The `error_status` that a community leaves a request with, where it is
let in. -/
def letIn (communities : Communities) (requestType : UInt8) (community : List UInt8) : Option UInt8 :=
  if community.length = 0 then none
  else if requestType = pduSetReq then
    if communities.write.head?.all (· = 0) then some snmpErrNotWritable
    else if strncmp communities.write community snmpMaxCommunityStrLen then some snmpErrNoError
    else none
  else if strncmp communities.read community snmpMaxCommunityStrLen then some snmpErrNoError
  else none

/-- A count is not negative. -/
def counted (value : ℕ) : ℕ := if value ≥ 2 ^ 31 then 0 else value

/-- What is read of a message up to its varbinds. -/
structure Header where
  version : ℕ
  community : List UInt8
  requestType : UInt8
  requestId : ℕ
  errorStatus : UInt8
  errorIndex : ℕ
  nonRepeaters : ℕ
  maxRepetitions : ℕ
  inboundPaddingLen : ℕ

/-- The PDU, up to its varbinds. -/
def decPdu (communities : Communities) (version : ℕ) (community : List UInt8) : Asn1 Header := do
  let tlv ← snmpAsn1DecTlv
  let left ← Code.left
  if ¬ tlv.valueLen ≤ left then throw .arg
  if ¬ isRequest version tlv.type then throw .arg
  let requestType := tlv.type &&& 0x1F
  match letIn communities requestType community with
  | none => throw .arg
  | some errorStatus =>
    let (requestId, parent) ← decInteger tlv.valueLen
    let (first, parent) ← decInteger parent
    if requestType ≠ pduGetBulkReq ∧ first ≠ 0 then throw .arg
    let (second, _) ← decInteger parent
    let varbinds ← snmpAsn1DecTlv
    if ¬ (varbinds.type = asn1Sequence ∧ varbinds.valueLen ≤ (← Code.left)) then throw .arg
    let header : Header :=
      ⟨version, community, requestType, requestId, errorStatus, 0, 0, 0, left - tlv.valueLen⟩
    if requestType = pduGetBulkReq then
      return { header with nonRepeaters := counted first, maxRepetitions := counted second }
    -- the assertion behind `error_index` is on the variable of `error_status`
    else return { header with errorIndex := second }

/-- A message, up to its varbinds. -/
def decHeader (communities : Communities) : Asn1 Header := do
  let tlv ← snmpAsn1DecTlv
  if ¬ (tlv.type = asn1Sequence ∧ tlv.valueLen = (← Code.left)) then throw .arg
  let (version, parent) ← decInteger tlv.valueLen
  if ¬ (version = snmpVersion1 ∨ version = snmpVersion2c) then throw .arg
  let community ← decCommunity parent
  decPdu communities version community

/-- `snmp_parse_inbound_frame`. The length of the varbinds is an `u16_t`. -/
def snmpParseInboundFrame {σ : Type} (communities : Communities) (nodes : σ)
    (p : List (List UInt8)) : Except Err (SnmpRequest σ) :=
  match Code.exec (decHeader communities) ⟨p.flatten, 0, p.flatten.length⟩ with
  | (.error err, _) => .error (ifParseExec err)
  | (.ok h, s) =>
    let len := (s.length + 2 ^ 16 - h.inboundPaddingLen) % 2 ^ 16
    .ok {
      nodes := nodes
      version := h.version
      community := h.community
      requestType := h.requestType
      requestId := h.requestId
      errorStatus := h.errorStatus
      errorIndex := h.errorIndex
      nonRepeaters := h.nonRepeaters
      maxRepetitions := h.maxRepetitions
      requestOutType := context ||| pduGetResp
      inboundPbuf := p
      inbound := snmpVbEnumeratorInit p.flatten s.offset len
      inboundVarbindOffset := s.offset
      inboundVarbindLen := len
      inboundPaddingLen := h.inboundPaddingLen
      outbound := ⟨[], 0, 0⟩
      outboundPduOffset := 0
      outboundErrorStatusOffset := 0
      outboundErrorIndexOffset := 0
      outboundVarbindOffset := 0 }

/-! ## Outbound -/

/-- What `OF_BUILD_EXEC` makes of an error. `ERR_VAL` is that of an index
in more than one octet. -/
def ofBuildExec : Err → Err
  | .val => .val
  | err => ifParseExec err

/-- An INTEGER. -/
def encInteger (value : ℕ) : Asn1 Unit := do
  let _ ← snmpAns1EncTlv ⟨asn1Integer, 0, 0, snmpAsn1EncS32tCnt value⟩
  snmpAsn1EncS32t (snmpAsn1EncS32tCnt value) value

/-- An INTEGER of one octet, which is 0 so far, and where it is. -/
def encPlace : Asn1 ℕ := do
  let _ ← snmpAns1EncTlv ⟨asn1Integer, 0, 0, 1⟩
  let offset ← Code.position
  snmpPbufStreamWrite 0
  return offset

/-- Where a message has its PDU, the status and index of an error, and its
varbinds. -/
structure Offsets where
  pdu : ℕ
  errorStatus : ℕ
  errorIndex : ℕ
  varbind : ℕ

/-- What `snmp_prepare_outbound_frame` writes. -/
def encFrame (version : ℕ) (community : List UInt8) (requestOutType : UInt8) (requestId : ℕ) :
    Asn1 Offsets := do
  let _ ← snmpAns1EncTlv ⟨asn1Sequence, 0, 3, 0⟩
  encInteger version
  let _ ← snmpAns1EncTlv ⟨asn1OctetString, 0, 0, community.length⟩
  snmpAsn1EncRaw community
  let pdu ← Code.position
  let _ ← snmpAns1EncTlv ⟨requestOutType, 0, 3, 0⟩
  encInteger requestId
  let errorStatus ← encPlace
  let errorIndex ← encPlace
  let _ ← snmpAns1EncTlv ⟨asn1Sequence, 0, 3, 0⟩
  let varbind ← Code.position
  return ⟨pdu, errorStatus, errorIndex, varbind⟩

/-- `snmp_pbuf_stream_seek_abs`. -/
def snmpPbufStreamSeekAbs (offset : ℕ) : Asn1 Unit := do
  if offset < (← Code.position) then throw .arg
  snmpPbufStreamSeek (offset - (← Code.position))

/-- `pbuf_skip`: the pbuf of the chain that has this offset, and where in
it. -/
def pbufSkip : List (List UInt8) → ℕ → Option (List UInt8 × ℕ)
  | [], _ => none
  | q :: p, offset => if q.length ≤ offset then pbufSkip p (offset - q.length) else some (q, offset)

/-- The loop of `snmp_pbuf_stream_writeto`, with `len` octets to come from
`offset` on. A chunk is as long as the pbuf it is in, wherever in the pbuf
it begins: where it then goes on behind the end, the code reads what is
not of the message. -/
def writetoLoop (p : List (List UInt8)) : ℕ → ℕ → ℕ → Asn1 Unit
  | 0, _, _ => pure ()
  | rounds + 1, offset, len =>
    if len > 0 then
      match pbufSkip p offset with
      | none => throw .buf
      | some (pbuf, targetOffset) => do
        if pbuf.length = 0 then throw .buf
        let chunkLen := min len pbuf.length
        if targetOffset + chunkLen > pbuf.length then throw .outside
        snmpPbufStreamWritebuf ((pbuf.drop targetOffset).take chunkLen)
        writetoLoop p rounds (offset + chunkLen) (len - chunkLen)
    else pure ()

/-- `snmp_pbuf_stream_writeto` of all that is left of a stream, which has
`length` octets of the chain from `offset` on. Each round of the loop
takes an octet at least. -/
def snmpPbufStreamWriteto (p : List (List UInt8)) (offset length : ℕ) : Asn1 Unit := do
  let len := min length (← Code.left)
  writetoLoop p len offset len

section

variable {σ : Type}

/-- `snmp_prepare_outbound_frame`. -/
def snmpPrepareOutboundFrame (pbufAlloc : Option (List UInt8)) (r : SnmpRequest σ) :
    Except Err (SnmpRequest σ) :=
  match pbufAlloc with
  | none => .error .mem
  | some p =>
    match Code.exec (encFrame r.version r.community r.requestOutType r.requestId)
        ⟨p, 0, p.length⟩ with
    | (.error _, _) => .error .arg
    | (.ok offsets, outbound) => .ok { r with
        outbound := outbound
        outboundPduOffset := offsets.pdu
        outboundErrorStatusOffset := offsets.errorStatus
        outboundErrorIndexOffset := offsets.errorIndex
        outboundVarbindOffset := offsets.varbind }

/-- The `error_status` of an answer, in the words of its version. -/
def finalStatus (version : ℕ) (requestType status : UInt8) : Option UInt8 :=
  if version = snmpVersion1 then
    if status = snmpErrNoError then some snmpErrNoError
    else if isMissing status then some snmpErrNoSuchName
    -- `WRONGVALUE`, `WRONGENCODING`, `WRONGTYPE`, `WRONGLENGTH` and `INCONSISTENTVALUE`
    else if status ∈ [10, 9, 7, 8, 12] then some snmpErrBadValue
    -- `NOACCESS`, `NOTWRITABLE`, `NOCREATION`, `INCONSISTENTNAME` and `AUTHORIZATIONERROR`
    else if status ∈ [6, 17, 11, 18, 16] then some snmpErrNoSuchName
    else some snmpErrGenError
  else
    let status :=
      if requestType = pduSetReq ∧ isMissing status then snmpErrNotWritable else status
    if status ≥ snmpVarbindExceptionOffset then none else some status

/-- The `error_index` of an answer. -/
def finalIndex (r : SnmpRequest σ) : ℕ :=
  if r.errorStatus ≠ snmpErrNoError then
    if r.errorStatus = snmpErrTooBig then 0
    else if r.errorIndex = 0 then r.inbound.varbindCount
    else r.errorIndex
  else r.errorIndex

/-- A number in the place of its octet, or an error where it has more. -/
def encOne (err : Err) (offset value : ℕ) : Asn1 Unit := do
  if value ≠ 0 then
    if snmpAsn1EncS32tCnt value ≠ 1 then throw err
    snmpPbufStreamSeekAbs offset
    snmpAsn1EncS32t 1 value

/-- What is completed of a frame of `frameSize` bytes. -/
def encCompletion (r : SnmpRequest σ) (frameSize : ℕ) : Asn1 Unit := do
  let _ ← snmpAns1EncTlv ⟨asn1Sequence, 0, 3, frameSize - 1 - 3⟩
  snmpPbufStreamSeekAbs r.outboundPduOffset
  let _ ← snmpAns1EncTlv ⟨r.requestOutType, 0, 3, frameSize - r.outboundPduOffset - 1 - 3⟩
  encOne .arg r.outboundErrorStatusOffset r.errorStatus.toNat
  encOne .val r.outboundErrorIndexOffset (finalIndex r)
  snmpPbufStreamSeekAbs (r.outboundVarbindOffset - 1 - 3)
  let _ ← snmpAns1EncTlv ⟨asn1Sequence, 0, 3, frameSize - r.outboundVarbindOffset⟩

/-- The varbinds of an error, and of a SET, are those of the request. -/
def returnVarbinds (r : SnmpRequest σ) : Except Err (SnmpRequest σ) :=
  if r.errorStatus ≠ snmpErrNoError ∨ r.requestType = pduSetReq then
    match Code.exec (snmpPbufStreamWriteto r.inboundPbuf r.inboundVarbindOffset r.inboundVarbindLen)
        ⟨r.outbound.cells, r.outboundVarbindOffset,
          r.outbound.cells.length - r.outboundVarbindOffset⟩ with
    | (.error err, _) => .error (ofBuildExec err)
    | (.ok (), outbound) => .ok { r with outbound := outbound }
  else .ok r

/-- `snmp_complete_outbound_frame`: the bytes of the frame. -/
def snmpCompleteOutboundFrame (r : SnmpRequest σ) : Except Err (List UInt8) :=
  match finalStatus r.version r.requestType r.errorStatus with
  | none => .error .arg
  | some errorStatus => do
    let r ← returnVarbinds { r with errorStatus := errorStatus }
    let frameSize := r.outbound.offset
    match Code.exec (encCompletion r frameSize) ⟨r.outbound.cells, 0, r.outbound.cells.length⟩ with
    | (.error err, _) => .error (ofBuildExec err)
    | (.ok _, s) => .ok (s.cells.take frameSize)

/-- An error of an enumerator ends a request without an answer. -/
def silent : VbErr → Err
  | .outside => .outside
  | _ => .arg

/-- The processing of a request. -/
def process (find : Nodes σ) (set : SnmpRequest σ → Except Err (SnmpRequest σ))
    (r : SnmpRequest σ) : Except Err (SnmpRequest σ) :=
  if r.errorStatus = snmpErrNoError then
    if r.requestType = pduGetReq then (snmpProcessGetRequest find r).mapError silent
    else if r.requestType = pduGetNextReq then (snmpProcessGetnextRequest find r).mapError silent
    else if r.requestType = pduGetBulkReq then (snmpProcessGetbulkRequest find r).mapError silent
    else if r.requestType = pduSetReq then set r
    else .ok r
  else .ok r

/-- `snmp_receive`: the message that is sent, and the nodes behind it. -/
def snmpReceive (communities : Communities) (find : Nodes σ)
    (set : SnmpRequest σ → Except Err (SnmpRequest σ)) (pbufAlloc : Option (List UInt8)) (nodes : σ)
    (p : List (List UInt8)) : Except Err (List UInt8 × σ) := do
  let r ← snmpParseInboundFrame communities nodes p
  let r ← snmpPrepareOutboundFrame pbufAlloc r
  let r ← process find set r
  let frame ← snmpCompleteOutboundFrame r
  return (frame, r.nodes)

end

end Agent

end Snmp

end SlipBoard
