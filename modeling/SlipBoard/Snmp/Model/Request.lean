import SlipBoard.Snmp.Model.Message
/-!
# SNMP — the requests that read

`snmp_process_varbind` and `snmp_process_get_request`,
`snmp_process_getnext_request` and `snmp_process_getbulk_request` of
`snmp_msg.c`. The tree of the nodes is a parameter: `Nodes` is what
`snmp_get_node_instance_from_oid` and
`snmp_get_next_node_instance_from_oid` find, as far as
`snmp_msg_getnext_validate_node_inst` accepts it for the version of the
request, with what `get_value` answers and the state of the nodes behind
it.

A signed number is its bit pattern; the two counts of a GETBULK are not
negative. `SNMP_LWIP_GETBULK_MAX_REPETITIONS` is 0 here. A loop runs as
often as the stream it reads has bytes, and once more.
-/

namespace SlipBoard

namespace Snmp

namespace Agent

/-- The values of `error_status` that are set here. -/
abbrev snmpErrNoError : UInt8 := 0
abbrev snmpErrTooBig : UInt8 := 1
abbrev snmpErrGenError : UInt8 := 5

/-- `SNMP_VERSION_1`. -/
abbrev snmpVersion1 : ℕ := 0

/-- `SNMP_VERSION_2c`. -/
abbrev snmpVersion2c : ℕ := 1

/-- `SNMP_VERSION_3`. -/
abbrev snmpVersion3 : ℕ := 3

/-- `SNMP_VARBIND_EXCEPTION_OFFSET`. -/
abbrev snmpVarbindExceptionOffset : UInt8 := 0xF0

/-- `SNMP_VARBIND_EXCEPTION_MASK`. -/
abbrev snmpVarbindExceptionMask : UInt8 := 0x0F

/-- The type of an exception in the place of a value. -/
def exceptionType (status : UInt8) : UInt8 := 0x80 ||| (status &&& snmpVarbindExceptionMask)

/-- The type of the exception `SNMP_ASN1_CONTEXT_VARBIND_END_OF_MIB_VIEW`. -/
abbrev endOfMibView : UInt8 := 0x82

/-- An instance, with the answer of its `get_value`: nothing where the
length is negative, else whether the data is raw, and the data. -/
structure NodeInstance where
  oid : List UInt32
  asn1Type : UInt8
  getValue : Option (Bool × List UInt8)

/-- The instance of a name, or with `getNext` of the next name, or an
error. -/
abbrev Nodes (σ : Type) :=
  Bool → ℕ → List UInt32 → σ → Except UInt8 NodeInstance × σ

/-- `struct snmp_request`, and the nodes. `inboundPbuf` is a chain of
pbufs, each the list of its bytes. -/
structure SnmpRequest (σ : Type) where
  nodes : σ
  version : ℕ
  community : List UInt8
  requestType : UInt8
  requestId : ℕ
  errorStatus : UInt8
  errorIndex : ℕ
  nonRepeaters : ℕ
  maxRepetitions : ℕ
  requestOutType : UInt8
  inboundPbuf : List (List UInt8)
  inbound : Enumerator
  inboundVarbindOffset : ℕ
  inboundVarbindLen : ℕ
  inboundPaddingLen : ℕ
  outbound : Stream
  outboundPduOffset : ℕ
  outboundErrorStatusOffset : ℕ
  outboundErrorIndexOffset : ℕ
  outboundVarbindOffset : ℕ

section

variable {σ : Type} (find : Nodes σ)

/-- `snmp_append_outbound_varbind`, and what becomes of its answer. -/
def appendVarbind (r : SnmpRequest σ) (vb : SnmpVarbind) : SnmpRequest σ :=
  let (answer, outbound) := Code.exec (snmpAppendOutboundVarbind vb) r.outbound
  { r with
    outbound := outbound
    errorStatus := match answer with
      | .ok () => snmpErrNoError
      | .error .buf => snmpErrTooBig
      | .error _ => snmpErrGenError }

/-- `snmp_process_varbind`: the request and the varbind behind it. -/
def snmpProcessVarbind (getNext : Bool) (r : SnmpRequest σ) (vb : SnmpVarbind) :
    SnmpRequest σ × SnmpVarbind :=
  match find getNext r.version vb.oid r.nodes with
  | (.error status, nodes) =>
    let r := { r with nodes := nodes }
    if status ≥ snmpVarbindExceptionOffset then
      if r.version = snmpVersion2c ∨ r.version = snmpVersion3 then
        let vb := { vb with type := exceptionType status, raw := false, valueLen := 0, value := [] }
        (appendVarbind r vb, vb)
      else ({ r with errorStatus := status }, vb)
    else ({ r with errorStatus := snmpErrGenError }, vb)
  | (.ok found, nodes) =>
    let r := { r with nodes := nodes }
    let oid := if getNext then found.oid else vb.oid
    match found.getValue with
    | some (raw, value) =>
      let vb := ⟨oid, found.asn1Type, raw, value.length, value⟩
      (appendVarbind r vb, vb)
    | none => ({ r with errorStatus := snmpErrGenError }, { vb with oid := oid })

/-- The loop of `snmp_process_get_request` and of
`snmp_process_getnext_request`. It ends with an error where the request is
malformed, and nothing is answered. -/
def requestLoop (getNext : Bool) : ℕ → SnmpRequest σ → Except VbErr (SnmpRequest σ)
  | 0, r => .ok r
  | rounds + 1, r =>
    if r.errorStatus ≠ snmpErrNoError then .ok r
    else match snmpVbEnumeratorGetNext true r.inbound with
      | (.ok vb, inbound) =>
        let r := { r with inbound := inbound }
        if vb.type = asn1Null ∧ vb.valueLen = 0 then
          requestLoop getNext rounds (snmpProcessVarbind find getNext r vb).1
        else requestLoop getNext rounds { r with errorStatus := snmpErrGenError }
      | (.error .eovb, inbound) => .ok { r with inbound := inbound }
      | (.error .invalidLength, inbound) =>
        requestLoop getNext rounds { r with inbound := inbound, errorStatus := snmpErrGenError }
      | (.error err, _) => .error err

/-- `snmp_process_get_request`. -/
def snmpProcessGetRequest (r : SnmpRequest σ) : Except VbErr (SnmpRequest σ) :=
  requestLoop find false (r.inbound.pbufStream.length + 1) r

/-- `snmp_process_getnext_request`. -/
def snmpProcessGetnextRequest (r : SnmpRequest σ) : Except VbErr (SnmpRequest σ) :=
  requestLoop find true (r.inbound.pbufStream.length + 1) r

/-- The variables of `snmp_process_getbulk_request`. -/
structure Bulk (σ : Type) where
  request : SnmpRequest σ
  nonRepeaters : ℤ
  repetitions : ℕ
  repetitionOffset : ℕ

/-- The head of the first loop, in front of the first repeater. -/
def Bulk.repeats (b : Bulk σ) : Bulk σ :=
  if b.nonRepeaters = 0 then
    { b with
      repetitionOffset := b.request.outbound.offset
      repetitions := b.repetitions - 1 }
  else b

/-- The first loop: the non-repeaters, and the first repetition. -/
def bulkFirst : ℕ → Bulk σ → Except VbErr (Bulk σ)
  | 0, b => .ok b
  | rounds + 1, b =>
    if b.request.errorStatus ≠ snmpErrNoError then .ok b
    else if b.nonRepeaters = 0 ∧ b.repetitions = 0 then .ok b.repeats
    else match snmpVbEnumeratorGetNext true b.repeats.request.inbound with
      | (.ok vb, inbound) =>
        let r := { b.repeats.request with inbound := inbound }
        if vb.type = asn1Null ∧ vb.valueLen = 0 then
          bulkFirst rounds { b.repeats with
            request := (snmpProcessVarbind find true r vb).1
            nonRepeaters := b.nonRepeaters - 1 }
        else bulkFirst rounds { b.repeats with request := { r with errorStatus := snmpErrGenError } }
      | (.error .eovb, inbound) =>
        .ok { b.repeats with request := { b.repeats.request with inbound := inbound } }
      | (.error .invalidLength, inbound) =>
        bulkFirst rounds { b.repeats with
          request := { b.repeats.request with inbound := inbound, errorStatus := snmpErrGenError } }
      | (.error err, _) => .error err

/-- A round of the second loop: what it appends while it enumerates what
the round before has appended, and whether all of that was the end of the
view. The enumerator reads the pbufs as they are. -/
def bulkRow : ℕ → SnmpRequest σ → Enumerator → Bool → SnmpRequest σ × Bool
  | 0, r, _, all => (r, all)
  | rounds + 1, r, e, all =>
    if r.errorStatus ≠ snmpErrNoError then (r, all)
    else match snmpVbEnumeratorGetNext false
        { e with pbufStream := { e.pbufStream with cells := r.outbound.cells } } with
      | (.ok vb, e) =>
        let (r, vb) := snmpProcessVarbind find true r vb
        if r.errorStatus ≠ snmpErrNoError then
          bulkRow rounds { r with errorIndex := r.nonRepeaters + e.varbindCount } e all
        else bulkRow rounds r e (all && vb.type = endOfMibView)
      | (.error .eovb, _) => (r, all)
      | (.error _, e) =>
        -- what was appended is not understood
        bulkRow rounds { r with
          errorStatus := snmpErrGenError
          errorIndex := r.nonRepeaters + e.varbindCount } e all

/-- The second loop. -/
def bulkRepeat : ℕ → SnmpRequest σ → ℕ → SnmpRequest σ
  | 0, r, _ => r
  | repetitions + 1, r, repetitionOffset =>
    if r.errorStatus = snmpErrNoError ∧ r.outbound.offset ≠ repetitionOffset then
      let len := r.outbound.offset - repetitionOffset
      let (r', all) := bulkRow find (len + 1) r
        (snmpVbEnumeratorInit r.outbound.cells repetitionOffset len) true
      if r'.errorStatus = snmpErrNoError ∧ all then r'
      else bulkRepeat repetitions r' r.outbound.offset
    else r

/-- `snmp_process_getbulk_request`. -/
def snmpProcessGetbulkRequest (r : SnmpRequest σ) : Except VbErr (SnmpRequest σ) := do
  let b ← bulkFirst find (r.inbound.pbufStream.length + 1) ⟨r, r.nonRepeaters, r.maxRepetitions, 0⟩
  let r := bulkRepeat find b.repetitions b.request b.repetitionOffset
  if r.errorStatus = snmpErrTooBig then return { r with errorStatus := snmpErrNoError }
  else return r

end

end Agent

end Snmp

end SlipBoard
