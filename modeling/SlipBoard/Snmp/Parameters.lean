import SlipBoard.Snmp.Model.Parameters
import SlipBoard.Snmp.Set
/-!
# SNMP — a SET and the next GET

`setPover` keeps the low byte of the value and accepts it whatever the
others are, so that the next GET tells the value again for 0 to 255 and
for no other (`setIsRead_iff`).

The nodes of the parameters are some that the agent can answer from
(`sound_parameters`) and set: a SET of theirs is made as a whole or not at
all (`transaction_parameters`), and what it has set is what the agent then
answers, again for 0 to 255 and for no other (`set_then_get`).
-/

namespace SlipBoard

namespace Snmp

open Bytes Agent

variable {v : Int32}

/-- An `s32_t` as it lies in the value buffer, its lowest byte first. -/
def encode (v : Int32) : List UInt8 := littleEndian 4 v.toUInt32.toNat

/-- The INTEGER that a value of four bytes is, and none for a value of
another length. -/
def yields (value : ℤ × List UInt8) : Option Int32 :=
  if value.1 = 4 then some (UInt32.ofNat (Bytes.value value.2.reverse)).toInt32 else none

/-- **A SET is what the next GET reports**: an accepted value is read
back, a value that is refused changes nothing, and one that no state of
the parameters reads as is refused. -/
def SetIsRead (p : ParametStruct) (v : Int32) : Prop :=
  ∃ set read, p.setParam = some set ∧ p.readParam = some read ∧
    ∀ st, ∃ st' err, set st 4 (encode v) = some (st', err) ∧
      (err = snmpErrNoError → yields (read st') = some v) ∧
      (err ≠ snmpErrNoError → st' = st) ∧
      ((∀ st₁, yields (read st₁) ≠ some v) → err ≠ snmpErrNoError)

/-- The value of a byte as an INTEGER, which is what a parameter is read as. -/
def ofByte (b : UInt8) : Int32 := (UInt32.ofNat b.toNat).toInt32

theorem yields_readPower (st : Params) : yields (readPower st) = some (ofByte st.power) := by
  have hlt : st.power.toNat < 256 ^ 4 := st.power.toNat_lt.trans (by decide)
  show some (UInt32.ofNat (Bytes.value (littleEndian 4 st.power.toNat).reverse)).toInt32 = _
  rw [value_littleEndian hlt]
  rfl

theorem setPover_encode (st : Params) (len : UInt16) (v : Int32) :
    setPover st len (encode v) = some (⟨UInt8.ofNat v.toUInt32.toNat⟩, snmpErrNoError) := by
  rw [setPover, encode, littleEndian_succ]
  rfl

/-- A value between 0 and 255, told by its 32 bits. -/
theorem bounds_iff : 0 ≤ v.toInt ∧ v.toInt ≤ 255 ↔ v.toUInt32.toNat < 256 := by
  have hbits : v.toInt = v.toBitVec.toInt := rfl
  have hnat : v.toUInt32.toNat = v.toBitVec.toNat := rfl
  have hlt := v.toBitVec.isLt
  rw [hbits, hnat, BitVec.toInt_eq_toNat_cond]
  split
  · omega
  · omega

/-- **The low byte is the value** for 0 to 255, and for no other of the
32-bit values. -/
theorem ofByte_eq_iff :
    ofByte (UInt8.ofNat v.toUInt32.toNat) = v ↔ 0 ≤ v.toInt ∧ v.toInt ≤ 255 := by
  have hword : ofByte (UInt8.ofNat v.toUInt32.toNat) = v ↔
      UInt32.ofNat (v.toUInt32.toNat % 256) = v.toUInt32 := by
    constructor
    · exact congrArg Int32.toUInt32
    · exact congrArg UInt32.toInt32
  rw [hword, bounds_iff, ← UInt32.toNat_inj, UInt32.toNat_ofNat']
  have hlt := v.toUInt32.toNat_lt
  omega

/-- The parameter that can be written is the power, with its two callbacks. -/
theorem eq_power {p : ParametStruct} (hp : p ∈ masParam) (hwrite : p.write = true) :
    p.setParam = some setPover ∧ p.readParam = some readPower := by
  simp only [masParam, List.mem_cons, List.not_mem_nil, or_false] at hp
  rcases hp with rfl | rfl
  · cases hwrite
  · exact ⟨rfl, rfl⟩

/-- **A SET is what the next GET reports for 0 to 255**, for every
parameter that can be written, and for no other 32-bit value: of the four
bytes of the value one is kept, and none is tested. -/
theorem setIsRead_iff (p : ParametStruct) (hp : p ∈ masParam) (hwrite : p.write = true)
    (v : Int32) : SetIsRead p v ↔ 0 ≤ v.toInt ∧ v.toInt ≤ 255 := by
  obtain ⟨hset, hread⟩ := eq_power hp hwrite
  rw [← ofByte_eq_iff]
  constructor
  · rintro ⟨set, read, hset', hread', h⟩
    obtain rfl := Option.some.inj (hset.symm.trans hset')
    obtain rfl := Option.some.inj (hread.symm.trans hread')
    obtain ⟨st', err, hrun, hyields, -, -⟩ := h .init
    rw [setPover_encode] at hrun
    cases hrun
    have hv := hyields rfl
    rw [yields_readPower] at hv
    exact Option.some.inj hv
  · intro hv
    refine ⟨setPover, readPower, hset, hread, fun st => ?_⟩
    have hyields : yields (readPower ⟨UInt8.ofNat v.toUInt32.toNat⟩) = some v := by
      rw [yields_readPower, hv]
    exact ⟨_, _, setPover_encode st 4 v, fun _ => hyields, fun herr => absurd rfl herr,
      fun hno => absurd hyields (hno _)⟩

/-- A power of 7, which the next GET reports. -/
theorem setIsRead_iff_seven : SetIsRead ⟨1, ascii "Power", true, some setPover, some readPower,
    asn1Integer⟩ 7 :=
  (setIsRead_iff _ (List.mem_cons_of_mem _ List.mem_cons_self) rfl 7).2 (by decide)

/-- **256 is accepted**, and read as 0: its low byte is kept, and the answer
is that there was no error. -/
theorem set_256_reads_zero : ∃ p ∈ masParam, p.write = true ∧ ¬ SetIsRead p 256 := by
  refine ⟨_, List.mem_cons_of_mem _ List.mem_cons_self, rfl, ?_⟩
  rintro ⟨set, read, hset, hread, h⟩
  cases hset
  cases hread
  obtain ⟨st', err, hrun, hyields, -, -⟩ := h .init
  rw [setPover_encode] at hrun
  cases hrun
  have hv := hyields rfl
  rw [yields_readPower] at hv
  exact absurd (Option.some.inj hv) (by decide)

/-! ## The nodes the agent finds -/

/-- The name of the power. -/
def powerName : List UInt32 := mib2MyOidArr ++ [2, 0]

section

variable {nodes : List ScalarNode} {node found : ScalarNode} {version : ℕ} {oid : List UInt32}

theorem mem_of_exact {rest : List UInt32}
    (h : snmpMibTreeResolveExact nodes oid = some (node, rest)) : node ∈ nodes := by
  rw [snmpMibTreeResolveExact] at h
  split at h
  · cases h
  · obtain ⟨found, hfound, hpair⟩ := Option.map_eq_some_iff.1 h
    obtain rfl := (Prod.mk.inj hpair).1
    exact List.mem_of_find?_eq_some hfound

theorem mem_of_level {subnodeOid : UInt32} {subnode : Option ScalarNode}
    (h : nextOnLevel subnodeOid nodes subnode = some node) : node ∈ nodes ∨ subnode = some node := by
  induction nodes generalizing subnode with
  | nil => exact .inr h
  | cons first nodes ih =>
    rw [nextOnLevel] at h
    split_ifs at h with hthis hbetter
    · obtain rfl := Option.some.inj h
      exact .inl List.mem_cons_self
    · rcases ih h with hmem | hfirst
      · exact .inl (List.mem_cons_of_mem _ hmem)
      · obtain rfl := Option.some.inj hfirst
        exact .inl List.mem_cons_self
    · exact (ih h).imp_left (List.mem_cons_of_mem _)

theorem mem_of_next (h : snmpMibTreeResolveNext nodes oid = some node) : node ∈ nodes := by
  rw [snmpMibTreeResolveNext] at h
  split at h
  · exact (mem_of_level h).resolve_right (by simp)
  · exact (mem_of_level h).resolve_right (by simp)

theorem mem_of_instance {rounds : ℕ} {start : Option ScalarNode}
    (hstart : ∀ node, start = some node → node ∈ nodes)
    (h : nextInstance nodes version rounds start = .ok found) : found ∈ nodes := by
  induction rounds generalizing start with
  | zero => cases start <;> cases h
  | succ rounds ih =>
    cases start with
    | none => cases h
    | some node =>
      rw [nextInstance] at h
      split_ifs at h with hvalid
      · obtain rfl := Except.ok.inj h
        exact hstart _ rfl
      · exact ih (fun node hnext => mem_of_next hnext) h

/-- **What is found is a node of the tree**, whatever the name. -/
theorem mem_of_find {getNext : Bool} {st st' : Params} {answer : NodeInstance}
    (h : paramNodes nodes getNext version oid st = (.ok answer, st')) :
    ∃ node ∈ nodes, answer = node.toNodeInstance st := by
  have hans := congrArg Prod.fst h
  cases getNext with
  | true =>
    rcases hfound : snmpGetNextNodeInstanceFromOid nodes version oid with err | node
    · rw [paramNodes, hfound] at hans
      cases hans
    · rw [paramNodes, hfound] at hans
      refine ⟨node, ?_, (Except.ok.inj hans).symm⟩
      rw [snmpGetNextNodeInstanceFromOid] at hfound
      dsimp only at hfound
      split_ifs at hfound with hnone hmib
      all_goals
        split at hfound
        · rename_i hexact
          exact mem_of_instance (fun _ hsome => Option.some.inj hsome ▸ mem_of_exact hexact) hfound
        · exact mem_of_instance (fun _ hsome => mem_of_next hsome) hfound
        · exact mem_of_instance (fun _ hsome => mem_of_next hsome) hfound
  | false =>
    rcases hfound : snmpGetNodeInstanceFromOid nodes oid with err | node
    · rw [paramNodes, hfound] at hans
      cases hans
    · rw [paramNodes, hfound] at hans
      dsimp only at hans
      split_ifs at hans with hvalid
      refine ⟨node, ?_, (Except.ok.inj hans).symm⟩
      rw [snmpGetNodeInstanceFromOid] at hfound
      split_ifs at hfound with hmib
      split at hfound
      · cases hfound
      · rename_i hexact
        split_ifs at hfound with hzero
        obtain rfl := Except.ok.inj hfound
        exact mem_of_exact hexact

theorem snmpGet_error {status : UInt8} (h : snmpGetNodeInstanceFromOid nodes oid = .error status) :
    status ≠ snmpErrNoError := by
  rw [snmpGetNodeInstanceFromOid] at h
  split_ifs at h with hmib
  · split at h
    · obtain rfl := Except.error.inj h
      decide
    · split_ifs at h with hzero
      obtain rfl := Except.error.inj h
      decide
  · obtain rfl := Except.error.inj h
    decide

/-- A node is found under its own name only, and it is one of the nodes. -/
theorem name_of_get (h : snmpGetNodeInstanceFromOid nodes oid = .ok node) :
    node ∈ nodes ∧ oid = node.name := by
  rw [snmpGetNodeInstanceFromOid] at h
  split_ifs at h with hmib
  split at h
  · cases h
  · rename_i found rest hexact
    split_ifs at h with hzero
    obtain rfl := Except.ok.inj h
    refine ⟨mem_of_exact hexact, ?_⟩
    obtain ⟨names, rfl⟩ := List.isPrefixOf_iff_prefix.1 hmib
    rw [snmpMibTreeResolveExact, List.drop_left] at hexact
    split at hexact
    · cases hexact
    · obtain ⟨found, hfound, hpair⟩ := Option.map_eq_some_iff.1 hexact
      obtain ⟨rfl, rfl⟩ := Prod.mk.inj hpair
      have hoid := List.find?_some hfound
      rw [ScalarNode.name, of_decide_eq_true hoid, hzero]

end

/-- The nodes of the board are two: the name of the board, and the power,
which may be set. -/
theorem mem_initParam {node : ScalarNode} (h : node ∈ initParam) :
    node = ⟨1, asn1OctetString, true, false, some retuenName, none⟩ ∨
      node = ⟨2, asn1Integer, true, true, some readPower, some setPover⟩ := by
  have hnodes : initParam = [⟨1, asn1OctetString, true, false, some retuenName, none⟩,
      ⟨2, asn1Integer, true, true, some readPower, some setPover⟩] := rfl
  rw [hnodes] at h
  rcases List.mem_cons.1 h with hname | hpower
  · exact .inl hname
  · exact .inr (List.mem_singleton.1 hpower)

/-- Their names can be asked for: both are short, and their first two
sub-identifiers fit one octet. -/
theorem name_parameters {node : ScalarNode} (h : node ∈ initParam) : Name node.name := by
  rcases mem_initParam h with rfl | rfl
  · exact ⟨by decide, by decide⟩
  · exact ⟨by decide, by decide⟩

/-- **The agent can append what the parameters answer**: each value is
what its type says, and each name can be asked for. -/
theorem sound_parameters : Sound (paramNodes initParam) := by
  intro getNext version oid st found st' value hoid hfind hvalue
  obtain ⟨node, hmem, rfl⟩ := mem_of_find hfind
  have hname : Name (if getNext then (node.toNodeInstance st).oid else oid) := by
    cases getNext with
    | false => exact hoid
    | true => exact name_parameters hmem
  have hholds : value.1 = false ∧ ValueHolds node.asn1Type value.2 := by
    rcases mem_initParam hmem with rfl | rfl
    · obtain rfl := Option.some.inj hvalue
      exact ⟨rfl, show ValueHolds asn1OctetString ((ascii "150MHz").take 6) by decide⟩
    · obtain rfl := Option.some.inj hvalue
      refine ⟨rfl, ?_⟩
      show ((littleEndian 4 st.power.toNat).take 4).length = 4
      rw [List.length_take, littleEndian, List.length_reverse, length_bigEndian]
      rfl
  exact SnmpVarbind.Holds.sent ⟨hname.1, hname.2, hholds.1, rfl, hholds.2⟩

/-! ## A transaction of the parameters -/

section

variable {vb : SnmpVarbind} {vbs : List SnmpVarbind}

/-- What can be set: the power, by an INTEGER. -/
def Settable (vb : SnmpVarbind) : Prop := vb.oid = powerName ∧ vb.type = asn1Integer

instance (vb : SnmpVarbind) : Decidable (Settable vb) := inferInstanceAs (Decidable (_ ∧ _))

/-- The parameters behind a SET of varbinds, one after the other: each keeps
the first byte of its value. -/
def assigned : List SnmpVarbind → Params → Params
  | [], st => st
  | vb :: vbs, st => assigned vbs { st with power := vb.value.headD st.power }

theorem wrongType_ne : snmpErrWrongType ≠ snmpErrNoError := by decide

theorem notWritable_ne : snmpErrNotWritable ≠ snmpErrNoError := by decide

/-- A test leaves the parameters as they are, and passes for the power as an
INTEGER only. -/
theorem test_parameters (vb : SnmpVarbind) (st : Params) :
    (testVarbind (paramSetNodes initParam) vb st).2 = st ∧
      ((testVarbind (paramSetNodes initParam) vb st).1 = snmpErrNoError ↔ Settable vb) := by
  rw [testVarbind, paramSetNodes]
  rcases hget : snmpGetNodeInstanceFromOid initParam vb.oid with status | node
  · refine ⟨rfl, fun hok => absurd hok (snmpGet_error hget), ?_⟩
    rintro ⟨hoid, -⟩
    rw [hoid] at hget
    cases hget
  · obtain ⟨hmem, hoid⟩ := name_of_get hget
    rcases mem_initParam hmem with rfl | rfl
    · have hne : vb.oid ≠ powerName := by
        rw [hoid]
        decide
      dsimp only [Except.map]
      split_ifs with htype hwrite
      · exact ⟨rfl, fun hok => absurd hok wrongType_ne, fun hset => absurd hset.1 hne⟩
      · exact ⟨rfl, fun hok => absurd hok notWritable_ne, fun hset => absurd hset.1 hne⟩
      · exact absurd (Or.inl not_false) hwrite
    · dsimp only [Except.map]
      split_ifs with htype hwrite
      · exact ⟨rfl, fun hok => absurd hok wrongType_ne, fun hset => absurd hset.2.symm htype⟩
      · exact absurd hwrite (by decide)
      · exact ⟨rfl, fun _ => ⟨hoid, (not_not.1 htype).symm⟩, fun _ => rfl⟩

theorem testAll_parameters (vbs : List SnmpVarbind) (count : ℕ) (st : Params) :
    (testAll (paramSetNodes initParam) vbs count st).nodes = st ∧
      ((testAll (paramSetNodes initParam) vbs count st).errorStatus = snmpErrNoError ↔
        ∀ vb ∈ vbs, Settable vb) := by
  induction vbs generalizing count with
  | nil => exact ⟨rfl, fun _ _ h => absurd h List.not_mem_nil, fun _ => rfl⟩
  | cons vb vbs ih =>
    obtain ⟨hsame, hok⟩ := test_parameters vb st
    rw [testAll]
    dsimp only
    split_ifs with hfail
    · exact ⟨hsame, fun h => absurd h hfail,
        fun hall => absurd (hok.2 (hall vb List.mem_cons_self)) hfail⟩
    · rw [hsame]
      obtain ⟨hsame', hok'⟩ := ih (count + 1)
      exact ⟨hsame', hok'.trans ⟨fun hall => List.forall_mem_cons.2 ⟨hok.1 (not_not.1 hfail), hall⟩,
        fun hall => (List.forall_mem_cons.1 hall).2⟩⟩

/-- The value of a varbind of the power has a first byte. -/
theorem value_ne_nil (h : vb.Holds) (hset : Settable vb) : vb.value ≠ [] := by
  have hvalue := h.value
  rw [ValueHolds, if_pos (Or.inl hset.2)] at hvalue
  intro hnil
  rw [hnil] at hvalue
  cases hvalue

theorem setAll_parameters (hvbs : ∀ vb ∈ vbs, vb.Holds) (hset : ∀ vb ∈ vbs, Settable vb)
    (count : ℕ) (st : Params) : setAll (paramSetNodes initParam) vbs count st =
      .ok ⟨snmpErrNoError, assigned vbs st, count + vbs.length⟩ := by
  induction vbs generalizing count st with
  | nil => rfl
  | cons vb vbs ih =>
    obtain ⟨hvb, hvbs⟩ := List.forall_mem_cons.1 hvbs
    obtain ⟨hone, hset⟩ := List.forall_mem_cons.1 hset
    obtain ⟨b, value, hvalue⟩ := List.exists_cons_of_ne_nil (value_ne_nil hvb hone)
    have hrun : setVarbind (paramSetNodes initParam) (count + 1) vb st =
        .ok (snmpErrNoError, ⟨b⟩) := by
      rw [setVarbind, hone.1, hvalue]
      rfl
    rw [setAll, hrun]
    dsimp only
    rw [if_neg (not_not_intro rfl), ih hvbs hset, assigned, hvalue, List.length_cons,
      Nat.add_right_comm, Nat.add_assoc]
    rfl

/-- **The parameters are set as a whole, or not at all**: where every
varbind is an INTEGER for the power all are set, in their order, and where
one is not the request fails and the parameters stay as they are. -/
theorem transaction_parameters (hvbs : ∀ vb ∈ vbs, vb.Holds) (st : Params) : ∃ outcome,
    transaction (paramSetNodes initParam) vbs st = .ok outcome ∧
      (outcome.errorStatus = snmpErrNoError ↔ ∀ vb ∈ vbs, Settable vb) ∧
      outcome.nodes = if ∀ vb ∈ vbs, Settable vb then assigned vbs st else st := by
  obtain ⟨hsame, hok⟩ := testAll_parameters vbs 0 st
  rw [transaction]
  by_cases hall : ∀ vb ∈ vbs, Settable vb
  · rw [if_neg (not_not_intro (hok.2 hall)), hsame, setAll_parameters hvbs hall, if_pos hall]
    exact ⟨_, rfl, iff_of_true rfl hall, rfl⟩
  · rw [if_pos fun hstatus => hall (hok.1 hstatus), if_neg hall]
    exact ⟨_, rfl, hok, hsame⟩

end

/-- **What the agent answers behind a SET** of the power is what was set
for 0 to 255, and for no other value. -/
theorem set_then_get (st : Params) (v : Int32) : ∃ st',
    transaction (paramSetNodes initParam) [⟨powerName, asn1Integer, false, 4, encode v⟩] st =
        .ok ⟨snmpErrNoError, st', 1⟩ ∧
      (ask (paramNodes initParam) false snmpVersion2c powerName st' =
          (.ok ⟨powerName, asn1Integer, false, 4, encode v⟩, st') ↔
        0 ≤ v.toInt ∧ v.toInt ≤ 255) := by
  refine ⟨⟨UInt8.ofNat v.toUInt32.toNat⟩, ?_, ?_⟩
  · rw [encode, littleEndian_succ]
    rfl
  · have hget : ask (paramNodes initParam) false snmpVersion2c powerName
        ⟨UInt8.ofNat v.toUInt32.toNat⟩ = (.ok ⟨powerName, asn1Integer, false, 4,
          littleEndian 4 (UInt8.ofNat v.toUInt32.toNat).toNat⟩, ⟨UInt8.ofNat v.toUInt32.toNat⟩) := rfl
    have hlow : (UInt8.ofNat v.toUInt32.toNat).toNat < 256 ^ 4 :=
      (UInt8.toNat_lt _).trans (by decide)
    rw [hget, bounds_iff]
    constructor
    · intro h
      have hbytes := congrArg SnmpVarbind.value (Except.ok.inj (Prod.mk.inj h).1)
      have hvalue := congrArg (fun bs => Bytes.value bs.reverse) hbytes
      simp only [encode, value_littleEndian hlow,
        value_littleEndian (show v.toUInt32.toNat < 256 ^ 4 from v.toUInt32.toNat_lt)] at hvalue
      exact hvalue ▸ UInt8.toNat_lt _
    · intro h
      rw [UInt8.toNat_ofNat_of_lt' h, encode]

end Snmp

end SlipBoard
