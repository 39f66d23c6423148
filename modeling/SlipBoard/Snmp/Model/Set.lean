import SlipBoard.Snmp.Model.Frame
/-!
# SNMP — the request that writes

`snmp_process_set_request` of `snmp_msg.c`: a loop that tests each
varbind, and a loop that sets each. The nodes are a parameter: `SetNodes`
is what `snmp_get_node_instance_from_oid` finds. A loop runs as often as
the stream it reads has bytes, and once more.
-/

namespace SlipBoard

namespace Snmp

namespace Agent

abbrev snmpErrWrongType : UInt8 := 7
abbrev snmpErrWrongLength : UInt8 := 8
abbrev snmpErrCommitFailed : UInt8 := 14
abbrev snmpErrUndoFailed : UInt8 := 15

/-- `set_test` and `set_value`, which get a length and a value. -/
abbrev Setter (σ : Type) := ℕ → List UInt8 → σ → UInt8 × σ

/-- An instance that may be set. -/
structure SetInstance (σ : Type) where
  asn1Type : UInt8
  writable : Bool
  setTest : Option (Setter σ)
  setValue : Option (Setter σ)

/-- The instance of a name, or an error. -/
abbrev SetNodes (σ : Type) := List UInt32 → σ → Except UInt8 (SetInstance σ) × σ

section

variable {σ : Type} (nodes : SetNodes σ)

/-- The test of a varbind: the `error_status`, and the nodes. -/
def testVarbind (vb : SnmpVarbind) (n : σ) : UInt8 × σ :=
  match nodes vb.oid n with
  | (.error status, n) => (status, n)
  | (.ok found, n) =>
    if found.asn1Type ≠ vb.type then (snmpErrWrongType, n)
    else if ¬ found.writable ∨ found.setValue.isNone then (snmpErrNotWritable, n)
    else match found.setTest with
      | none => (snmpErrNoError, n)
      | some setTest => setTest vb.valueLen vb.value n

/-- The first loop. -/
def testLoop : ℕ → SnmpRequest σ → Except Err (SnmpRequest σ)
  | 0, r => .ok r
  | rounds + 1, r =>
    if r.errorStatus ≠ snmpErrNoError then .ok r
    else match snmpVbEnumeratorGetNext true r.inbound with
      | (.ok vb, inbound) =>
        let (status, n) := testVarbind nodes vb r.nodes
        testLoop rounds { r with inbound := inbound, errorStatus := status, nodes := n }
      | (.error .eovb, inbound) => .ok { r with inbound := inbound }
      | (.error .invalidLength, inbound) =>
        testLoop rounds { r with inbound := inbound, errorStatus := snmpErrWrongLength }
      | (.error err, _) => .error (silent err)

/-- The setting of the varbind of this number. An instance without
`set_value` is a call of no function. -/
def setVarbind (count : ℕ) (vb : SnmpVarbind) (n : σ) : Except Err (UInt8 × σ) :=
  match nodes vb.oid n with
  | (.error status, n) => .ok (status, n)
  | (.ok found, n) =>
    match found.setValue with
    | none => .error .outside
    | some setValue =>
      let (status, n) := setValue vb.valueLen vb.value n
      if status ≠ snmpErrNoError then
        .ok (if count = 1 then snmpErrCommitFailed else snmpErrUndoFailed, n)
      else .ok (snmpErrNoError, n)

/-- The second loop. -/
def setLoop : ℕ → SnmpRequest σ → Except Err (SnmpRequest σ)
  | 0, r => .ok r
  | rounds + 1, r =>
    if r.errorStatus ≠ snmpErrNoError then .ok r
    else match snmpVbEnumeratorGetNext true r.inbound with
      | (.ok vb, inbound) => do
        let (status, n) ← setVarbind nodes inbound.varbindCount vb r.nodes
        setLoop rounds { r with inbound := inbound, errorStatus := status, nodes := n }
      | (.error .eovb, inbound) => .ok { r with inbound := inbound }
      | (.error .outside, _) => .error .outside
      | (.error _, inbound) =>
        setLoop rounds { r with inbound := inbound, errorStatus := snmpErrGenError }

/-- `snmp_process_set_request`. -/
def snmpProcessSetRequest (r : SnmpRequest σ) : Except Err (SnmpRequest σ) := do
  let r ← testLoop nodes (r.inbound.pbufStream.length + 1) r
  if r.errorStatus = snmpErrNoError then
    let inbound :=
      snmpVbEnumeratorInit r.inboundPbuf.flatten r.inboundVarbindOffset r.inboundVarbindLen
    setLoop nodes (inbound.pbufStream.length + 1) { r with inbound := inbound }
  else return r

end

end Agent

end Snmp

end SlipBoard
