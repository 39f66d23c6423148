import SlipBoard.Common.Block
import SlipBoard.Snmp.Model.Set
/-!
# SNMP — the parameters of the board

`paramerts.c`, and how the agent finds them. A value is the bytes of the
agent's value buffer, in the order of the processor; the value of an
INTEGER is an `s32_t` there. The callbacks do not read the instance they
are passed.

The nodes of `initParam` are scalars under one tree node, the root of the
MIB of the parameters, and `snmp_init_board` leaves the agent no other
MIB. So of the search in `snmp_core.c` this is what is left: a name is in
the MIB or not, and the tree has one level.
-/

namespace SlipBoard

namespace Snmp

open Bytes Agent

/-- The variables the parameters are kept in. -/
structure Params where
  power : UInt8
  deriving DecidableEq

/-- The values at start. -/
def Params.init : Params := ⟨159⟩

/-- `setParam`: the length and the value buffer, of which it reads what it
likes. It answers an `snmp_err_t`. -/
abbrev SetValue := Params → UInt16 → List UInt8 → Option (Params × UInt8)

/-- `readParam`: the length, and the bytes written. -/
abbrev GetValue := Params → ℤ × List UInt8

/-- `retuenName`. -/
def retuenName : GetValue := fun _ => (6, ascii "150MHz")

/-- `setPover`. -/
def setPover : SetValue := fun st _ value => do
  let power ← value.head?
  return ({ st with power := power }, snmpErrNoError)

/-- `readPower`. -/
def readPower : GetValue := fun st => (4, littleEndian 4 st.power.toNat)

/-- `ParametStruct`. -/
structure ParametStruct where
  id : UInt8
  parametsrName : List UInt8
  write : Bool
  setParam : Option SetValue
  readParam : Option GetValue
  typeReturn : UInt8

/-- `masParam`. -/
def masParam : List ParametStruct := [
  ⟨0, ascii "Name", false, none, some retuenName, asn1OctetString⟩,
  ⟨1, ascii "Power", true, some setPover, some readPower, asn1Integer⟩]

/-! ## The nodes -/

/-- `struct snmp_scalar_node`, less what all of them have. -/
structure ScalarNode where
  oid : UInt32
  asn1Type : UInt8
  readable : Bool
  writable : Bool
  getValue : Option GetValue
  setValue : Option SetValue

/-- `initParam`. No node has a `set_test`. -/
def initParam : List ScalarNode := masParam.mapIdx fun i p =>
  if p.write then ⟨UInt32.ofNat (i + 1), p.typeReturn, true, true, p.readParam, p.setParam⟩
  else ⟨UInt32.ofNat (i + 1), p.typeReturn, true, false, p.readParam, none⟩

/-- `mib2_my_oid_arr`, the name of `myMibsParametrs`. -/
def mib2MyOidArr : List UInt32 := [2, 7, 40]

/-- `SNMP_ERR_NOSUCHOBJECT`, `SNMP_ERR_NOSUCHINSTANCE` and
`SNMP_ERR_ENDOFMIBVIEW`. -/
abbrev snmpErrNoSuchObject : UInt8 := 0xF0
abbrev snmpErrNoSuchInstance : UInt8 := 0xF1
abbrev snmpErrEndOfMibView : UInt8 := 0xF2

/-- The name of the instance of a node. -/
def ScalarNode.name (node : ScalarNode) : List UInt32 := mib2MyOidArr ++ [node.oid, 0]

section

variable (nodes : List ScalarNode)

/-- `snmp_mib_tree_resolve_exact`: the node that a name leads to, and what
is left of the name. -/
def snmpMibTreeResolveExact (oid : List UInt32) : Option (ScalarNode × List UInt32) :=
  match oid.drop mib2MyOidArr.length with
  | [] => none
  | subnodeOid :: instanceOid => (nodes.find? (·.oid = subnodeOid)).map (·, instanceOid)

/-- The search of `snmp_mib_tree_resolve_next` on a level: the node of this
number, or of the next. -/
def nextOnLevel (subnodeOid : UInt32) : List ScalarNode → Option ScalarNode → Option ScalarNode
  | [], subnode => subnode
  | node :: nodes, subnode =>
    if node.oid = subnodeOid then some node
    else if node.oid > subnodeOid ∧ subnode.all (node.oid < ·.oid) then
      nextOnLevel subnodeOid nodes (some node)
    else nextOnLevel subnodeOid nodes subnode

/-- `snmp_mib_tree_resolve_next`. -/
def snmpMibTreeResolveNext (oid : List UInt32) : Option ScalarNode :=
  match oid.drop mib2MyOidArr.length with
  | [] => nextOnLevel 0 nodes none
  | subnodeOid :: _ => nextOnLevel (subnodeOid + 1) nodes none

/-- `snmp_get_node_instance_from_oid`, with `snmp_get_mib_from_oid` and
`snmp_scalar_get_instance`: a scalar has the instance `.0`. -/
def snmpGetNodeInstanceFromOid (oid : List UInt32) : Except UInt8 ScalarNode :=
  if mib2MyOidArr.isPrefixOf oid then
    match snmpMibTreeResolveExact nodes oid with
    | none => .error snmpErrNoSuchObject
    | some (node, instanceOid) =>
      if instanceOid = [0] then .ok node else .error snmpErrNoSuchInstance
  else .error snmpErrNoSuchObject

/-- `snmp_msg_getnext_validate_node_inst`. -/
def snmpMsgGetnextValidateNodeInst (version : ℕ) (node : ScalarNode) : Bool :=
  node.readable ∧ node.getValue.isSome ∧
    ¬ (node.asn1Type = asn1Counter64 ∧ version = snmpVersion1)

/-- The inner loop of `snmp_get_next_node_instance_from_oid`: the instance
of the node, or of the first behind it that may be read. -/
def nextInstance (version : ℕ) : ℕ → Option ScalarNode → Except UInt8 ScalarNode
  | _, none => .error snmpErrEndOfMibView
  | 0, some _ => .error snmpErrEndOfMibView
  | rounds + 1, some node =>
    if snmpMsgGetnextValidateNodeInst version node then .ok node
    else nextInstance version rounds (snmpMibTreeResolveNext nodes (mib2MyOidArr ++ [node.oid]))

/-- `snmp_get_next_node_instance_from_oid`. A name in front of the MIB goes
on at its beginning, as `snmp_get_next_mib` says. -/
def snmpGetNextNodeInstanceFromOid (version : ℕ) (oid : List UInt32) : Except UInt8 ScalarNode :=
  if oid = [] then .error snmpErrEndOfMibView
  else if mib2MyOidArr.isPrefixOf oid ∨ oid < mib2MyOidArr then
    let start := if mib2MyOidArr.isPrefixOf oid then oid else mib2MyOidArr
    let rounds := nodes.length
    match snmpMibTreeResolveExact nodes start with
    | some (node, []) => nextInstance nodes version rounds (some node)
    | some (node, _) =>
      nextInstance nodes version rounds (snmpMibTreeResolveNext nodes (mib2MyOidArr ++ [node.oid]))
    | none => nextInstance nodes version rounds (snmpMibTreeResolveNext nodes start)
  else .error snmpErrEndOfMibView

/-! ## What the agent finds -/

/-- An instance that is read. -/
def ScalarNode.toNodeInstance (node : ScalarNode) (st : Params) : NodeInstance where
  oid := node.name
  asn1Type := node.asn1Type
  getValue := node.getValue.bind fun getValue =>
    let (len, value) := getValue st
    if len ≥ 0 then some (false, value.take len.toNat) else none

/-- The instances that requests read. -/
def paramNodes : Nodes Params := fun getNext version oid st =>
  (match getNext with
    | true => (snmpGetNextNodeInstanceFromOid nodes version oid).map (·.toNodeInstance st)
    | false => match snmpGetNodeInstanceFromOid nodes oid with
      | .error err => .error err
      | .ok node =>
        if snmpMsgGetnextValidateNodeInst version node then .ok (node.toNodeInstance st)
        else .error snmpErrNoSuchInstance, st)

/-- `set_value`, as the agent calls it. It hands over what it has decoded,
which is not empty where the type is INTEGER. -/
def toSetter (set : SetValue) : Setter Params := fun len value st =>
  match set st (UInt16.ofNat len) value with
  | some (st, err) => (err, st)
  | none => (snmpErrGenError, st)

/-- The instances that requests set. -/
def paramSetNodes : SetNodes Params := fun oid st =>
  ((snmpGetNodeInstanceFromOid nodes oid).map fun node =>
    ⟨node.asn1Type, node.writable, none, node.setValue.map toSetter⟩, st)

end

end Snmp

end SlipBoard
