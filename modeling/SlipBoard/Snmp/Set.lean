import SlipBoard.Snmp.Model.Set
import SlipBoard.Snmp.Frame
/-!
# SNMP — a SET is tested, and then set

What a SET does to the nodes, varbind by varbind: all of them are tested,
and only where no test has failed are they set, up to the first that
cannot be (`transaction`). The two loops of the code, each over the
octets of the message, do that (`setRequest_eq`), and what is answered
are the varbinds of the request, with what has become of them
(`Message.echo`).
-/

namespace SlipBoard

namespace Snmp

namespace Agent

open Bytes Code

variable {σ : Type} (nodes : SetNodes σ)

/-! ## The transaction -/

/-- How a SET has ended: the status, the nodes, and how many varbinds were
tried. -/
structure Outcome (σ : Type) where
  errorStatus : UInt8
  nodes : σ
  tried : ℕ

/-- The tests of varbinds behind `count` others, up to the first that
fails. -/
def testAll : List SnmpVarbind → ℕ → σ → Outcome σ
  | [], count, n => ⟨snmpErrNoError, n, count⟩
  | vb :: vbs, count, n =>
    let (status, n) := testVarbind nodes vb n
    if status ≠ snmpErrNoError then ⟨status, n, count + 1⟩ else testAll vbs (count + 1) n

/-- Their setting, up to the first that cannot be set. -/
def setAll : List SnmpVarbind → ℕ → σ → Except Err (Outcome σ)
  | [], count, n => .ok ⟨snmpErrNoError, n, count⟩
  | vb :: vbs, count, n =>
    match setVarbind nodes (count + 1) vb n with
    | .error err => .error err
    | .ok (status, n) =>
      if status ≠ snmpErrNoError then .ok ⟨status, n, count + 1⟩ else setAll vbs (count + 1) n

/-- **What a SET does**: all varbinds are tested, nothing is set unless
every test has passed, and the setting ends at the first that fails. -/
def transaction (vbs : List SnmpVarbind) (n : σ) : Except Err (Outcome σ) :=
  let tests := testAll nodes vbs 0 n
  if tests.errorStatus ≠ snmpErrNoError then .ok tests else setAll nodes vbs 0 tests.nodes

/-! ## The loops -/

variable {nodes} {r : SnmpRequest σ} {vbs : List SnmpVarbind}

/-- The request behind one of the two loops: where its enumerator stands,
and the status and the nodes that the loop has left. -/
def ended (r : SnmpRequest σ) (e : Enumerator) (outcome : Outcome σ) : SnmpRequest σ :=
  { r with inbound := e, errorStatus := outcome.errorStatus, nodes := outcome.nodes }

theorem testLoop_fail (r : SnmpRequest σ) (hfail : r.errorStatus ≠ snmpErrNoError) (rounds : ℕ) :
    testLoop nodes rounds r = .ok r := by
  cases rounds with
  | zero => rfl
  | succ rounds => exact if_pos hfail

theorem setLoop_fail (r : SnmpRequest σ) (hfail : r.errorStatus ≠ snmpErrNoError) (rounds : ℕ) :
    setLoop nodes rounds r = .ok r := by
  cases rounds with
  | zero => rfl
  | succ rounds => exact if_pos hfail

/-- The first loop tests the varbinds in their order, up to the first that
does not pass. -/
theorem testLoop_eq (nodes : SetNodes σ) (rounds : ℕ) (h : Carries r.inbound vbs)
    (hok : r.errorStatus = snmpErrNoError) :
    ∃ e, e.varbindCount = (testAll nodes vbs r.inbound.varbindCount r.nodes).tried ∧
      testLoop nodes (vbs.length + (rounds + 1)) r =
        .ok (ended r e (testAll nodes vbs r.inbound.varbindCount r.nodes)) := by
  induction vbs generalizing r with
  | nil =>
    refine ⟨r.inbound, rfl, ?_⟩
    rw [List.length_nil, Nat.zero_add, testLoop, if_neg (not_not_intro hok), h.done, testAll, ended,
      ← hok]
  | cons vb vbs ih =>
    obtain ⟨e, hget, hrest, hcount⟩ := h.head
    rw [List.length_cons, Nat.add_right_comm, testLoop, if_neg (not_not_intro hok), hget, testAll]
    dsimp only
    by_cases hstatus : (testVarbind nodes vb r.nodes).1 = snmpErrNoError
    · rw [if_neg (not_not_intro hstatus), ← hcount]
      exact ih (r := { r with
        inbound := e
        errorStatus := (testVarbind nodes vb r.nodes).1
        nodes := (testVarbind nodes vb r.nodes).2 }) hrest hstatus
    · rw [if_pos hstatus, testLoop_fail { r with
        inbound := e
        errorStatus := (testVarbind nodes vb r.nodes).1
        nodes := (testVarbind nodes vb r.nodes).2 } hstatus]
      exact ⟨e, hcount, rfl⟩

/-- The second loop sets the varbinds in their order, up to the first that
fails. -/
theorem setLoop_eq (nodes : SetNodes σ) (rounds : ℕ) (h : Carries r.inbound vbs)
    (hok : r.errorStatus = snmpErrNoError) :
    ∃ e, (∀ outcome, setAll nodes vbs r.inbound.varbindCount r.nodes = .ok outcome →
        e.varbindCount = outcome.tried) ∧
      setLoop nodes (vbs.length + (rounds + 1)) r =
        (setAll nodes vbs r.inbound.varbindCount r.nodes).map (ended r e) := by
  induction vbs generalizing r with
  | nil =>
    refine ⟨r.inbound, fun outcome hend => ?_, ?_⟩
    · rw [← Except.ok.inj hend]
    · rw [List.length_nil, Nat.zero_add, setLoop, if_neg (not_not_intro hok), h.done, setAll]
      show _ = Except.ok (ended r r.inbound ⟨snmpErrNoError, r.nodes, _⟩)
      rw [ended, ← hok]
  | cons vb vbs ih =>
    obtain ⟨e, hget, hrest, hcount⟩ := h.head
    rw [List.length_cons, Nat.add_right_comm, setLoop, if_neg (not_not_intro hok), hget, setAll,
      ← hcount]
    dsimp only
    rcases hone : setVarbind nodes e.varbindCount vb r.nodes with err | ⟨status, n⟩
    · exact ⟨e, fun outcome hend => (by cases hend), rfl⟩
    · rw [ok_bind]
      dsimp only
      by_cases hstatus : status = snmpErrNoError
      · rw [if_neg (not_not_intro hstatus)]
        exact ih (r := { r with inbound := e, errorStatus := status, nodes := n }) hrest hstatus
      · rw [if_pos hstatus, setLoop_fail { r with
          inbound := e, errorStatus := status, nodes := n } hstatus]
        exact ⟨e, fun outcome hend => by rw [← Except.ok.inj hend], rfl⟩

/-- **The two loops are the transaction**, and the number of varbinds they
have read is that of those tried. -/
theorem setRequest_eq (nodes : SetNodes σ) (hinit : r.inbound =
      snmpVbEnumeratorInit r.inboundPbuf.flatten r.inboundVarbindOffset r.inboundVarbindLen)
    (h : Carries r.inbound vbs) (hok : r.errorStatus = snmpErrNoError) : ∃ e,
    (∀ outcome, transaction nodes vbs r.nodes = .ok outcome → e.varbindCount = outcome.tried) ∧
      snmpProcessSetRequest nodes r = (transaction nodes vbs r.nodes).map (ended r e) := by
  have hle := h.length_le
  have hfuel : r.inbound.pbufStream.length + 1 =
      vbs.length + (r.inbound.pbufStream.length - vbs.length + 1) := by omega
  have hcount : r.inbound.varbindCount = 0 := by rw [hinit, snmpVbEnumeratorInit]
  obtain ⟨e, htried, htests⟩ := testLoop_eq nodes (r.inbound.pbufStream.length - vbs.length) h hok
  rw [← hfuel, hcount] at htests
  rw [hcount] at htried
  rw [snmpProcessSetRequest, htests, ok_bind, transaction]
  dsimp only
  by_cases hstatus : (testAll nodes vbs 0 r.nodes).errorStatus = snmpErrNoError
  · rw [if_neg (not_not_intro hstatus)]
    have hagain : (ended r e (testAll nodes vbs 0 r.nodes)).errorStatus = snmpErrNoError := hstatus
    obtain ⟨e', htried', hsets⟩ := setLoop_eq nodes (r.inbound.pbufStream.length - vbs.length)
      (r := { ended r e (testAll nodes vbs 0 r.nodes) with inbound := r.inbound }) h hagain
    dsimp only [ended] at htried' hsets
    rw [hcount] at htried' hsets
    rw [← hfuel] at hsets
    refine ⟨e', htried', ?_⟩
    rw [if_pos hagain]
    dsimp only [ended]
    rw [← hinit, hsets]
    rfl
  · have hfail : (ended r e (testAll nodes vbs 0 r.nodes)).errorStatus ≠ snmpErrNoError := hstatus
    rw [if_pos hstatus, if_neg hfail]
    exact ⟨e, fun outcome hend => by rw [← Except.ok.inj hend, htried], rfl⟩

/-! ## The answer -/

/-- **What is sent behind a SET**: its varbinds, and what has become of
them. Nothing is sent where the status has no words, or it or the index
has more than one octet; and where the varbinds are not in place in the
chain that holds the request, the code reads behind the end of a pbuf. -/
def Message.echo (m : Message) (lengthLen : ℕ → ℕ) (p : List (List UInt8)) (outcome : Outcome σ) :
    Except Err (List UInt8 × σ) :=
  match finalStatus m.version pduSetReq outcome.errorStatus with
  | none => .error .arg
  | some status =>
    if ¬ m.Copied lengthLen p then .error .outside
    else if snmpAsn1EncS32tCnt status.toNat ≠ 1 then .error .arg
    else if snmpAsn1EncS32tCnt (replyIndex status m.second outcome.tried) ≠ 1 then .error .val
    else .ok ((m.answer status.toNat (replyIndex status m.second outcome.tried)
      (m.varbinds.take m.room)).octets fun _ => 3, outcome.nodes)

variable {m : Message} {communities : Communities} {lengthLen : ℕ → ℕ} {p : List (List UInt8)}
variable {mem : List UInt8} {n : σ}

theorem complete_echo (h : Admitted communities lengthLen m) (hmem : mem.length = 1472)
    (hr : Ready m lengthLen p mem n r) (htype : m.type &&& 0x1F = pduSetReq) {e : Enumerator}
    {outcome : Outcome σ} (htried : e.varbindCount = outcome.tried) : (do
      let frame ← snmpCompleteOutboundFrame (ended r e outcome)
      return (frame, outcome.nodes)) = m.echo lengthLen p outcome := by
  have hbulk : m.type &&& 0x1F ≠ pduGetBulkReq := by
    rw [htype]
    decide
  have hindex : r.errorIndex = m.second := by rw [hr.index, Message.header, if_neg hbulk]
  have hended : ended r e outcome = { answered r ⟨[], outcome.errorStatus, outcome.nodes⟩ with
      inbound := e, errorStatus := outcome.errorStatus, errorIndex := m.second } := by
    rw [ended, answered, octets, List.flatMap_nil, r.outbound.put_nil, ← hindex]
  rw [Message.echo]
  rcases hfinal : finalStatus m.version pduSetReq outcome.errorStatus with _ | status
  · rw [← hr.version, ← htype, ← hr.requestType] at hfinal
    have hnone : snmpCompleteOutboundFrame (ended r e outcome) = .error .arg := by
      rw [snmpCompleteOutboundFrame, ended, hfinal]
    rw [hnone]
    rfl
  · rw [← htype] at hfinal
    have hfits : (octets (⟨[], outcome.errorStatus, outcome.nodes⟩ : Answers σ).varbinds).length ≤
        m.room := Nat.zero_le _
    have hown := complete_own h hmem hr hfits hfinal (.inr htype) e m.second
    rw [hended, hown, htried]
    dsimp only
    split_ifs
    · rfl
    · rfl
    · rfl
    · rfl

/-- **A SET is the transaction of its varbinds**, and is answered with them.
The two loops read the varbinds from the octets of the request, once to test
and once to set, and both read what the sender has coded. -/
theorem receive_set (h : Admitted communities lengthLen m) (hp : p.flatten = m.octets lengthLen)
    (hmem : mem.length = 1472) (hvbs : ∀ vb ∈ vbs, vb.Holds) (hvarbinds : Codes vbs m.varbinds)
    (htype : m.type = context ||| pduSetReq) (find : Nodes σ) (nodes : SetNodes σ) (n : σ) :
    snmpReceive communities find (snmpProcessSetRequest nodes) (some mem) n p =
      transaction nodes vbs n >>= m.echo lengthLen p := by
  obtain ⟨r, hr, hreceive⟩ := receive_ready h hp hmem find (snmpProcessSetRequest nodes) n
  have hmasked : m.type &&& 0x1F = pduSetReq := by
    rw [htype]
    rfl
  obtain ⟨e, htried, hrun⟩ := setRequest_eq nodes (by rw [hr.inbound])
    (hr.carries hvbs hvarbinds) hr.status
  rw [hr.nodes] at htried hrun
  have hprocess : process find (snmpProcessSetRequest nodes) r =
      (transaction nodes vbs n).map (ended r e) := by
    rw [process, if_pos hr.status, hr.requestType, hmasked, if_neg (by decide), if_neg (by decide),
      if_neg (by decide), if_pos rfl, hrun]
  rw [hreceive, hprocess]
  rcases hend : transaction nodes vbs n with err | outcome
  · rfl
  · exact complete_echo h hmem hr hmasked (htried outcome hend)

/-- A tree with one scalar, which may be set to any INTEGER. -/
def writableScalar : SetNodes (List UInt8) := fun oid n =>
  (if oid = [1, 3, 6, 1, 0] then
    .ok ⟨asn1Integer, true, some fun _ _ n => (snmpErrNoError, n),
      some fun _ value _ => (snmpErrNoError, value)⟩
  else .error 0xF1, n)

/-- A SET of the scalar, and of something that is not in the tree. -/
def orders : List SnmpVarbind :=
  [⟨[1, 3, 6, 1, 0], asn1Integer, false, 4, [5, 0, 0, 0]⟩,
    ⟨[1, 3, 7], asn1Integer, false, 4, [5, 0, 0, 0]⟩]

/-- Neither is set: the second of the two names is not in the tree, and the
first has been tested only. -/
theorem receive_set_neither :
    snmpReceive ⟨[], [112, 117, 98]⟩ (fun _ _ _ n => (.error snmpErrGenError, n))
      (snmpProcessSetRequest writableScalar) (some (List.replicate 1472 0)) [7, 0, 0, 0]
      [({ query pduSetReq 0 0 with varbinds := octets orders } : Message).octets
        snmpAsn1EncLengthCnt] =
      .ok ((({ query pduSetReq 0 0 with varbinds := octets orders } : Message).answer 17 2
        (octets orders)).octets fun _ => 3, [7, 0, 0, 0]) := by
  have hadmitted : Admitted ⟨[], [112, 117, 98]⟩ snmpAsn1EncLengthCnt
      { query pduSetReq 0 0 with varbinds := octets orders } :=
    ⟨.inr rfl, by decide, by decide, by decide, by decide, by decide, by decide, fun _ => rfl,
      fun n => ⟨le_refl _, (encLengthCnt_le n).2.trans (by decide)⟩, by decide⟩
  have hholds : ∀ vb ∈ orders, vb.Holds := by
    intro vb hvb
    rcases List.mem_cons.1 hvb with rfl | hvb
    · exact ⟨by decide, by decide, rfl, rfl, by decide⟩
    · obtain rfl := List.mem_singleton.1 hvb
      exact ⟨by decide, by decide, rfl, rfl, by decide⟩
  exact receive_set hadmitted List.flatten_singleton List.length_replicate hholds
    (codes_own fun vb hvb => (hholds vb hvb).sent) rfl _ writableScalar [7, 0, 0, 0]

end Agent

end Snmp

end SlipBoard
