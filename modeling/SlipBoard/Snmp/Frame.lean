import SlipBoard.Snmp.Chain
import SlipBoard.Snmp.Request
/-!
# SNMP — a message and its answer

A message of the protocol is the octets of its fields (`Message.octets`),
with its lengths in as many octets as the sender likes. A request that is
let in is understood (`parse_eq`), and its answer is completed in the
place where it was prepared (`exec_completion`). So a request that reads
is answered with a message of the varbinds that `askAll` or `bulk` say,
or, where there is an error, of its own (`Message.reply`). What is no
request, or is not let in, fails in front of its varbinds
(`fails_header`).
-/

namespace SlipBoard

namespace Snmp

namespace Agent

open Bytes Code

variable {σ : Type} {find : Nodes σ} {v : ℕ}

/-! ## Numbers -/

/-- The octets of an INTEGER as the agent codes it, in as few octets as its
value needs. -/
def integerOctets (value : ℕ) : List UInt8 :=
  headOctets asn1Integer 1 (snmpAsn1EncS32tCnt value) ++ bigEndian (snmpAsn1EncS32tCnt value) value

theorem encS32tCnt_le (value : ℕ) :
    0 < snmpAsn1EncS32tCnt value ∧ snmpAsn1EncS32tCnt value ≤ 4 := by
  unfold snmpAsn1EncS32tCnt
  dsimp only
  split_ifs <;> omega

theorem length_integerOctets (value : ℕ) :
    (integerOctets value).length = 2 + snmpAsn1EncS32tCnt value := by
  rw [integerOctets, List.length_append, length_headOctets _ _ (by decide), length_bigEndian]

theorem length_integer_one (h : snmpAsn1EncS32tCnt v = 1) : (integerOctets v).length = 3 := by
  rw [length_integerOctets, h]

theorem encLengthCnt_one (h : v < 0x80) : snmpAsn1EncLengthCnt v = 1 := if_pos h

theorem reads_integer (hv : v < 2 ^ 32) {parent : ℤ}
    (hparent : ((integerOctets v).length : ℤ) < parent) :
    Reads (decInteger parent) (integerOctets v) (v, parent - (integerOctets v).length) := by
  obtain ⟨hpos, hle⟩ := encS32tCnt_le v
  have hlen := length_integerOctets v
  have hhead := reads_decTlv asn1Integer rfl
    (encLengthCnt_one (show snmpAsn1EncS32tCnt v < 0x80 by omega)).le (by decide)
    (show snmpAsn1EncS32tCnt v < 0xFFFF by omega)
  have htlv : Tlv.length ⟨asn1Integer, 1, 1, snmpAsn1EncS32tCnt v⟩ = (integerOctets v).length := by
    rw [hlen]
    rfl
  rw [decInteger]
  refine hhead.bind ?_
  rw [if_neg (not_not_intro rfl)]
  dsimp only
  rw [htlv, if_neg (not_not_intro (by omega))]
  exact (reads_s32 hv).2.map fun value => (value, parent - ((integerOctets v).length : ℤ))

theorem writes_head (type : UInt8) (htype : extended type = false) (h : v < 0x80) :
    Writes (snmpAns1EncTlv ⟨type, 0, 0, v⟩) (headOctets type 1 v) ⟨type, 1, 1, v⟩ := by
  have hone : (if v ≤ 127 then 1 else if v ≤ 255 then 2 else 3) = 1 := if_pos (by omega)
  rw [snmpAns1EncTlv, htype, if_neg Bool.false_ne_true, if_neg (not_not_intro rfl)]
  simp only [hone]
  exact (writes_write type).bind ((writes_write _).bind (Writes.pure _))

theorem writes_integer (hv : v < 2 ^ 32) : Writes (encInteger v) (integerOctets v) () := by
  obtain ⟨hpos, hle⟩ := encS32tCnt_le v
  rw [encInteger]
  exact (writes_head asn1Integer rfl (by omega)).bind (reads_s32 hv).1

/-! ## Messages -/

/-- A message: its fields, in the order in which they stand. `first` and
`second` are the status and the index of an error, or the counts of a
GETBULK. -/
structure Message where
  version : ℕ
  community : List UInt8
  type : UInt8
  requestId : ℕ
  first : ℕ
  second : ℕ
  varbinds : List UInt8

/-- The head of a container: its length, and how many octets that length is
coded in. -/
structure Container where
  lengthLen : ℕ
  length : ℕ

/-- What stands in front of the varbinds, where the three containers have
these heads. -/
def Message.front (m : Message) (whole pdu list : Container) : List UInt8 :=
  headOctets asn1Sequence whole.lengthLen whole.length ++ (integerOctets m.version ++
    (headOctets asn1OctetString 1 m.community.length ++ (m.community ++
      (headOctets m.type pdu.lengthLen pdu.length ++ (integerOctets m.requestId ++
        (integerOctets m.first ++ (integerOctets m.second ++
          headOctets asn1Sequence list.lengthLen list.length)))))))

section

variable (lengthLen : ℕ → ℕ) (m : Message)

/-- The container of the varbinds, which is the innermost one. -/
def Message.list : Container := ⟨lengthLen m.varbinds.length, m.varbinds.length⟩

/-- The container of the PDU: the request's id, the two numbers behind it,
and the list. -/
def Message.pdu : Container :=
  let length := (integerOctets m.requestId).length + (integerOctets m.first).length +
    (integerOctets m.second).length + 1 + (m.list lengthLen).lengthLen + m.varbinds.length
  ⟨lengthLen length, length⟩

/-- The container of the whole message: its version, its community and the
PDU. -/
def Message.whole : Container :=
  let length := (integerOctets m.version).length + 2 + m.community.length + 1 +
    (m.pdu lengthLen).lengthLen + (m.pdu lengthLen).length
  ⟨lengthLen length, length⟩

/-- **The octets of a message**, where a length of `n` is coded in
`lengthLen n` octets. -/
def Message.octets : List UInt8 :=
  m.front (m.whole lengthLen) (m.pdu lengthLen) (m.list lengthLen) ++ m.varbinds

end

theorem length_pdu (lengthLen : ℕ → ℕ) (m : Message) : (m.pdu lengthLen).length =
    (integerOctets m.requestId).length + (integerOctets m.first).length +
      (integerOctets m.second).length + 1 + (m.list lengthLen).lengthLen + m.varbinds.length := rfl

theorem length_whole (lengthLen : ℕ → ℕ) (m : Message) : (m.whole lengthLen).length =
    (integerOctets m.version).length + 2 + m.community.length + 1 + (m.pdu lengthLen).lengthLen +
      (m.pdu lengthLen).length := rfl

theorem length_front (m : Message) {whole pdu list : Container} (hwhole : 0 < whole.lengthLen)
    (hpdu : 0 < pdu.lengthLen) (hlist : 0 < list.lengthLen) :
    (m.front whole pdu list).length = 1 + whole.lengthLen + (integerOctets m.version).length + 2 +
      m.community.length + 1 + pdu.lengthLen + (integerOctets m.requestId).length +
      (integerOctets m.first).length + (integerOctets m.second).length + 1 + list.lengthLen := by
  simp only [Message.front, List.length_append, length_headOctets _ _ hwhole,
    length_headOctets _ _ hpdu, length_headOctets _ _ hlist, length_headOctets _ _ Nat.one_pos]
  omega

/-! ## Inbound -/

/-- **A request that is let in**: a manager has coded it, with lengths that
are no shorter than they must be, and shows the community that its kind of
request needs. The status of an error is 0 in a request, so only a GETBULK
has another number there. -/
structure Admitted (communities : Communities) (lengthLen : ℕ → ℕ) (m : Message) : Prop where
  version : m.version = snmpVersion1 ∨ m.version = snmpVersion2c
  community : m.community.length ≤ snmpMaxCommunityStrLen
  request : isRequest m.version m.type = true
  letIn : letIn communities (m.type &&& 0x1F) m.community = some snmpErrNoError
  requestId : m.requestId < 2 ^ 32
  first : m.first < 2 ^ 32
  second : m.second < 2 ^ 32
  status : m.type &&& 0x1F ≠ pduGetBulkReq → m.first = 0
  lengths : ∀ n, snmpAsn1EncLengthCnt n ≤ lengthLen n ∧ lengthLen n ≤ 128
  short : (m.whole lengthLen).length < 0xFFFF

/-- What is read of a message in front of its varbinds. -/
def Message.header (m : Message) : Header :=
  if m.type &&& 0x1F = pduGetBulkReq then
    ⟨m.version, m.community, m.type &&& 0x1F, m.requestId, snmpErrNoError, 0, counted m.first,
      counted m.second, 0⟩
  else ⟨m.version, m.community, m.type &&& 0x1F, m.requestId, snmpErrNoError, m.second, 0, 0, 0⟩

section

variable {communities : Communities} {lengthLen : ℕ → ℕ} {m : Message}

theorem extended_request (h : isRequest m.version m.type = true) : extended m.type = false := by
  rw [isRequest, decide_eq_true_eq] at h
  rcases h with h | h | ⟨h, -⟩ | h
  · rw [h]
    decide
  · rw [h]
    decide
  · rw [h]
    decide
  · rw [h]
    decide

theorem Admitted.head (h : Admitted communities lengthLen m) {type : UInt8}
    (htype : extended type = false) {n : ℕ} (hn : n < 0xFFFF) :
    Reads snmpAsn1DecTlv (headOctets type (lengthLen n) n) ⟨type, 1, lengthLen n, n⟩ :=
  reads_decTlv type htype (h.lengths n).1 (h.lengths n).2 hn

theorem Admitted.version_lt (h : Admitted communities lengthLen m) : m.version < 2 ^ 32 := by
  rcases h.version with hv | hv
  · rw [hv]
    decide
  · rw [hv]
    decide

theorem Admitted.lengthLen_pos (h : Admitted communities lengthLen m) (n : ℕ) : 0 < lengthLen n :=
  (encLengthCnt_le n).1.trans_le (h.lengths n).1

theorem reads_pdu (h : Admitted communities lengthLen m) : ReadsBefore m.varbinds
    (decPdu communities m.version m.community)
    (headOctets m.type (m.pdu lengthLen).lengthLen (m.pdu lengthLen).length ++
      (integerOctets m.requestId ++ (integerOctets m.first ++ (integerOctets m.second ++
        headOctets asn1Sequence (m.list lengthLen).lengthLen (m.list lengthLen).length))))
    m.header := by
  have hshort := h.short
  have hpdu := length_pdu lengthLen m
  have hwhole := length_whole lengthLen m
  have hlist : 0 < (m.list lengthLen).lengthLen := h.lengthLen_pos m.varbinds.length
  rw [decPdu]
  refine ((h.head (n := (m.pdu lengthLen).length) (extended_request h.request)
    (by omega)).before _).bind ?_
  refine ReadsBefore.left ?_
  have hleft : (integerOctets m.requestId ++ (integerOctets m.first ++ (integerOctets m.second ++
      headOctets asn1Sequence (m.list lengthLen).lengthLen (m.list lengthLen).length))).length +
      m.varbinds.length = (m.pdu lengthLen).length := by
    rw [List.length_append, List.length_append, List.length_append, length_headOctets _ _ hlist,
      hpdu]
    omega
  rw [hleft]
  dsimp only
  rw [if_neg (not_not_intro (le_refl _)), if_neg (not_not_intro h.request), h.letIn]
  dsimp only
  refine ((reads_integer h.requestId (by omega)).before _).bind ?_
  dsimp only
  refine ((reads_integer h.first (by omega)).before _).bind ?_
  dsimp only
  rw [if_neg fun hne => hne.2 (h.status hne.1)]
  have hlast : ReadsBefore m.varbinds snmpAsn1DecTlv
      (headOctets asn1Sequence (m.list lengthLen).lengthLen (m.list lengthLen).length)
      ⟨asn1Sequence, 1, (m.list lengthLen).lengthLen, (m.list lengthLen).length⟩ :=
    (h.head (n := m.varbinds.length) rfl (by omega)).before _
  refine ((reads_integer h.second (by omega)).before _).bind ?_
  dsimp only
  rw [Nat.sub_self, ← List.append_nil (headOctets asn1Sequence _ _)]
  refine ReadsBefore.bind hlast (ReadsBefore.left ?_)
  have hfits : (m.list lengthLen).length ≤ ([] : List UInt8).length + m.varbinds.length := by
    rw [List.length_nil, Nat.zero_add]
    exact le_refl _
  dsimp only
  rw [if_neg (not_not_intro ⟨rfl, hfits⟩), Message.header]
  split_ifs
  · exact ReadsBefore.pure _
  · exact ReadsBefore.pure _

theorem reads_community {parent : ℤ} {c : List UInt8} (hc : c.length ≤ snmpMaxCommunityStrLen)
    (hparent : (2 + c.length : ℤ) < parent) :
    Reads (decCommunity parent) (headOctets asn1OctetString 1 c.length ++ c) c := by
  have hshort : c.length < 0x80 := hc.trans_lt (by decide)
  have hhead := reads_decTlv asn1OctetString rfl (encLengthCnt_one hshort).le
    (by decide) (show c.length < 0xFFFF by omega)
  have htlv : ((Tlv.length ⟨asn1OctetString, 1, 1, c.length⟩ : ℕ) : ℤ) = 2 + c.length := by
    rw [Tlv.length]
    push_cast
    ring
  rw [decCommunity]
  refine hhead.bind ?_
  rw [if_neg (not_not_intro rfl), htlv, if_neg (not_not_intro (by omega))]
  dsimp only
  rw [if_neg (not_lt.2 hc), snmpAsn1DecRaw, if_neg (not_lt.2 hc)]
  exact reads_decRaw c

/-- **A message is read up to its varbinds**, whatever these are: each head
in front of them fits what its container has left. -/
theorem reads_header (h : Admitted communities lengthLen m) : ReadsBefore m.varbinds
    (decHeader communities)
    (m.front (m.whole lengthLen) (m.pdu lengthLen) (m.list lengthLen)) m.header := by
  have hshort := h.short
  have hwhole : 0 < (m.whole lengthLen).lengthLen := h.lengthLen_pos _
  have hpdu : 0 < (m.pdu lengthLen).lengthLen := h.lengthLen_pos _
  have hlist : 0 < (m.list lengthLen).lengthLen := h.lengthLen_pos _
  have hfront := length_front m hwhole hpdu hlist
  have hlength := length_whole lengthLen m
  have hinner := length_pdu lengthLen m
  rw [decHeader]
  rw [Message.front, List.length_append, length_headOctets _ _ hwhole] at hfront
  refine ((h.head (n := (m.whole lengthLen).length) rfl hshort).before _).bind ?_
  refine ReadsBefore.left ?_
  dsimp only
  rw [if_neg (not_not_intro ⟨rfl, by omega⟩)]
  refine ((reads_integer h.version_lt (by omega)).before _).bind ?_
  dsimp only
  rw [if_neg (not_not_intro h.version), ← List.append_assoc (headOctets asn1OctetString _ _)]
  exact ((reads_community h.community (by omega)).before _).bind (reads_pdu h)

theorem length_octets (lengthLen : ℕ → ℕ) (m : Message) : (m.octets lengthLen).length =
    (m.front (m.whole lengthLen) (m.pdu lengthLen) (m.list lengthLen)).length +
      m.varbinds.length := List.length_append

/-- **A request is understood**: `snmp_parse_inbound_frame` leaves its
fields, and an enumerator whose window is the octets of its varbinds. -/
theorem parse_eq (h : Admitted communities lengthLen m) {p : List (List UInt8)}
    (hp : p.flatten = m.octets lengthLen) (nodes : σ) :
    let offset := (m.front (m.whole lengthLen) (m.pdu lengthLen) (m.list lengthLen)).length
    snmpParseInboundFrame communities nodes p = .ok {
      nodes := nodes
      version := m.version
      community := m.community
      requestType := m.type &&& 0x1F
      requestId := m.requestId
      errorStatus := snmpErrNoError
      errorIndex := m.header.errorIndex
      nonRepeaters := m.header.nonRepeaters
      maxRepetitions := m.header.maxRepetitions
      requestOutType := context ||| pduGetResp
      inboundPbuf := p
      inbound := snmpVbEnumeratorInit (m.octets lengthLen) offset m.varbinds.length
      inboundVarbindOffset := offset
      inboundVarbindLen := m.varbinds.length
      inboundPaddingLen := 0
      outbound := ⟨[], 0, 0⟩
      outboundPduOffset := 0
      outboundErrorStatusOffset := 0
      outboundErrorIndexOffset := 0
      outboundVarbindOffset := 0 } := by
  have hshort : m.varbinds.length < 2 ^ 16 := by
    have hwhole := h.short
    have hlength := length_whole lengthLen m
    have hinner := length_pdu lengthLen m
    omega
  have hwithin : Cursor.Within ⟨m.octets lengthLen, 0, (m.octets lengthLen).length⟩ :=
    (Nat.zero_add _).le
  have hwindow : Cursor.window ⟨m.octets lengthLen, 0, (m.octets lengthLen).length⟩ =
      m.octets lengthLen := List.take_length
  have hread := reads_header h _ hwithin hwindow
  rw [snmpParseInboundFrame, hp, hread]
  have hheader : m.header.version = m.version ∧ m.header.community = m.community ∧
      m.header.requestType = m.type &&& 0x1F ∧ m.header.requestId = m.requestId ∧
      m.header.errorStatus = snmpErrNoError ∧ m.header.inboundPaddingLen = 0 := by
    rw [Message.header]
    split_ifs
    · exact ⟨rfl, rfl, rfl, rfl, rfl, rfl⟩
    · exact ⟨rfl, rfl, rfl, rfl, rfl, rfl⟩
  obtain ⟨hversion, hcommunity, htype, hid, hstatus, hpadding⟩ := hheader
  have hleft : (Cursor.skip ⟨m.octets lengthLen, 0, (m.octets lengthLen).length⟩
      (m.front (m.whole lengthLen) (m.pdu lengthLen) (m.list lengthLen)).length).length =
      m.varbinds.length := by
    show (m.octets lengthLen).length - _ = _
    rw [length_octets, Nat.add_sub_cancel_left]
  have hoffset : (Cursor.skip ⟨m.octets lengthLen, 0, (m.octets lengthLen).length⟩
      (m.front (m.whole lengthLen) (m.pdu lengthLen) (m.list lengthLen)).length).offset =
      (m.front (m.whole lengthLen) (m.pdu lengthLen) (m.list lengthLen)).length := Nat.zero_add _
  dsimp only
  rw [hversion, hcommunity, htype, hid, hstatus, hpadding, hleft, hoffset, Nat.sub_zero,
    Nat.add_mod_right, Nat.mod_eq_of_lt hshort]

end

/-! ## Outbound -/

/-- An answer to a message: a response with the same version, community and
id, and with varbinds of its own. -/
def Message.answer (m : Message) (errorStatus errorIndex : ℕ) (varbinds : List UInt8) : Message :=
  { m with
    type := context ||| pduGetResp
    first := errorStatus
    second := errorIndex
    varbinds := varbinds }

/-- A container whose length has three octets, as the agent writes it before
it knows the length. -/
abbrev long (length : ℕ) : Container := ⟨3, length⟩

/-- The answer as it is prepared, with the status and the index zero and no
varbind yet. -/
def Message.blank (m : Message) : List UInt8 := (m.answer 0 0 []).front (long 0) (long 0) (long 0)

/-- Where the parts of an answer are that are written once they are known:
its PDU, its status, its index and its varbinds. -/
def Message.offsets (m : Message) : Offsets :=
  let pdu := 4 + (integerOctets m.version).length + 2 + m.community.length
  let errorStatus := pdu + 4 + (integerOctets m.requestId).length + 2
  ⟨pdu, errorStatus, errorStatus + 3, errorStatus + 8⟩

theorem writes_long (type : UInt8) (htype : extended type = false) (h : v < 2 ^ 16) :
    Writes (snmpAns1EncTlv ⟨type, 0, 3, v⟩) (headOctets type 3 v) ⟨type, 1, 3, v⟩ :=
  writes_encTlv type htype (encLengthCnt_le v).2 h

theorem writes_place (o : ℕ) : WritesFrom o encPlace (integerOctets 0) (o + 2) := by
  rw [encPlace]
  refine ((writes_head asn1Integer rfl (show 1 < 0x80 by decide)).from o).bind ?_
  exact WritesFrom.position (((writes_write 0).map fun _ => o + 2).from _)

theorem writes_frame (m : Message) (hversion : m.version < 2 ^ 32) (hid : m.requestId < 2 ^ 32)
    (hpos : m.community ≠ []) (hc : m.community.length ≤ snmpMaxCommunityStrLen) :
    WritesFrom 0 (encFrame m.version m.community (context ||| pduGetResp) m.requestId) m.blank
      m.offsets := by
  have hshort : m.community.length < 0x80 := hc.trans_lt (by decide)
  rw [encFrame]
  refine ((writes_long asn1Sequence rfl (by decide)).from _).bind ?_
  refine ((writes_integer hversion).from _).bind ?_
  refine ((writes_head asn1OctetString rfl hshort).from _).bind ?_
  refine ((writes_writebuf hpos).from _).bind ?_
  refine WritesFrom.position ?_
  refine ((writes_long (context ||| pduGetResp) (by decide) (by decide)).from _).bind ?_
  refine ((writes_integer hid).from _).bind ?_
  refine (writes_place _).bind ?_
  refine (writes_place _).bind ?_
  rw [← List.append_nil (headOctets asn1Sequence _ _)]
  refine ((writes_long asn1Sequence rfl (by decide)).from _).bind (WritesFrom.position ?_)
  have hzero : (integerOctets 0).length = 3 := rfl
  have hthree : ∀ type, (headOctets type 3 0).length = 4 := fun _ => rfl
  have hone : (headOctets asn1OctetString 1 m.community.length).length = 2 := rfl
  rw [hzero, hthree, hthree, hone, Nat.zero_add]
  exact (Writes.pure m.offsets).from _

/-! ## The completion of an answer -/

section

variable {s : Stream} {front back ds cs : List UInt8} {k : ℕ}

theorem exec_seekAbs {row : List UInt8} (hs : Behind s row k) (hk : k ≤ row.length) :
    ∃ t, exec (snmpPbufStreamSeekAbs k) s = (.ok (), t) ∧ Behind t row k ∧ t.offset = k := by
  have hoffset := hs.offset
  have hend := hs.length
  have hoff : (s.skip (k - s.offset)).offset = k := by
    show s.offset + (k - s.offset) = k
    omega
  refine ⟨s.skip (k - s.offset), ?_, ⟨hs.cells, hoff.le, ?_⟩, hoff⟩
  · rw [snmpPbufStreamSeekAbs, exec_bind_ok (exec_position s), if_neg (by omega),
      exec_bind_ok (exec_position s)]
    exact if_neg (by omega)
  · rw [hoff]
    show k + (s.length - (k - s.offset)) = row.length
    omega

theorem writes_one (v : ℕ) : Writes (snmpAsn1EncS32t 1 v) [UInt8.ofNat v] () :=
  (Writes.pure ()).bind (writes_write _)

theorem exec_encOne (err : Err) (hv : snmpAsn1EncS32tCnt v = 1)
    (hs : Behind s (front ++ ([0] ++ back)) front.length) : ∃ t,
    exec (encOne err front.length v) s = (.ok (), t) ∧
      Behind t (front ++ ([UInt8.ofNat v] ++ back)) (front.length + 1) := by
  rw [encOne]
  by_cases hzero : v = 0
  · rw [if_neg (not_not_intro hzero), hzero]
    exact ⟨s, rfl, hs.mono (Nat.le_succ _)⟩
  · obtain ⟨t, hseek, ht, ho⟩ := exec_seekAbs hs (by rw [List.length_append]; omega)
    rw [if_pos hzero, if_neg (not_not_intro hv), exec_bind_ok hseek]
    exact (writes_one v).patch ht ho rfl

theorem exec_encOne_fail (err : Err) (o : ℕ) (hv : snmpAsn1EncS32tCnt v ≠ 1) (s : Stream) :
    exec (encOne err o v) s = (.error err, s) := by
  have hzero : v ≠ 0 := by
    rintro rfl
    exact hv (by decide)
  rw [encOne, if_pos hzero, if_pos hv]
  rfl

end

section

variable (m : Message) (tail : List UInt8)

/-- An answer with some of its lengths, in front of other octets. -/
def Message.row (whole pdu errorStatus errorIndex list : ℕ) : List UInt8 :=
  (m.answer errorStatus errorIndex []).front (long whole) (long pdu) (long list) ++ tail

/-- The octets of an answer in front of its PDU, for a message of `whole`
octets. -/
def Message.untilPdu (whole : ℕ) : List UInt8 :=
  headOctets asn1Sequence 3 whole ++ (integerOctets m.version ++
    (headOctets asn1OctetString 1 m.community.length ++ m.community))

/-- The octets in front of the status of an error. -/
def Message.untilStatus (whole pdu : ℕ) : List UInt8 :=
  m.untilPdu whole ++ (headOctets (context ||| pduGetResp) 3 pdu ++
    (integerOctets m.requestId ++ headOctets asn1Integer 1 1))

/-- The octets of an answer in front of its index, which is written behind
its status. -/
def Message.untilIndex (whole pdu errorStatus : ℕ) : List UInt8 :=
  m.untilStatus whole pdu ++ ([UInt8.ofNat errorStatus] ++ headOctets asn1Integer 1 1)

variable {m tail}

theorem integerOctets_one (hv : snmpAsn1EncS32tCnt v = 1) :
    integerOctets v = headOctets asn1Integer 1 1 ++ [UInt8.ofNat v] := by
  rw [integerOctets, hv]
  rfl

theorem row_pdu (whole pdu errorStatus errorIndex list : ℕ) :
    m.row tail whole pdu errorStatus errorIndex list =
      m.untilPdu whole ++ (headOctets (context ||| pduGetResp) 3 pdu ++
        (integerOctets m.requestId ++ (integerOctets errorStatus ++ (integerOctets errorIndex ++
          (headOctets asn1Sequence 3 list ++ tail))))) := by
  simp only [Message.row, Message.front, Message.answer, Message.untilPdu, List.append_assoc]

theorem row_status {errorStatus : ℕ} (hs : snmpAsn1EncS32tCnt errorStatus = 1)
    (whole pdu errorIndex list : ℕ) : m.row tail whole pdu errorStatus errorIndex list =
      m.untilStatus whole pdu ++ ([UInt8.ofNat errorStatus] ++ (integerOctets errorIndex ++
        (headOctets asn1Sequence 3 list ++ tail))) := by
  rw [row_pdu, integerOctets_one hs]
  simp only [Message.untilStatus, List.append_assoc]

theorem row_index {errorStatus errorIndex : ℕ} (hs : snmpAsn1EncS32tCnt errorStatus = 1)
    (hi : snmpAsn1EncS32tCnt errorIndex = 1) (whole pdu list : ℕ) :
    m.row tail whole pdu errorStatus errorIndex list =
      m.untilIndex whole pdu errorStatus ++ ([UInt8.ofNat errorIndex] ++
        (headOctets asn1Sequence 3 list ++ tail)) := by
  rw [row_status hs, integerOctets_one hi]
  simp only [Message.untilIndex, List.append_assoc]

theorem row_list {errorStatus errorIndex : ℕ} (hs : snmpAsn1EncS32tCnt errorStatus = 1)
    (hi : snmpAsn1EncS32tCnt errorIndex = 1) (whole pdu list : ℕ) :
    m.row tail whole pdu errorStatus errorIndex list =
      (m.untilIndex whole pdu errorStatus ++ [UInt8.ofNat errorIndex]) ++
        (headOctets asn1Sequence 3 list ++ tail) := by
  rw [row_index hs hi, List.append_assoc]

theorem length_until (whole pdu errorStatus : ℕ) : (m.untilPdu whole).length = m.offsets.pdu ∧
    (m.untilStatus whole pdu).length = m.offsets.errorStatus ∧
    (m.untilIndex whole pdu errorStatus).length = m.offsets.errorIndex ∧
    m.offsets.varbind - 1 - 3 = (m.untilIndex whole pdu errorStatus).length + 1 := by
  have hthree : ∀ type v, (headOctets type 3 v).length = 4 := fun _ _ => rfl
  have hone : ∀ type v, (headOctets type 1 v).length = 2 := fun _ _ => rfl
  simp only [Message.untilIndex, Message.untilStatus, Message.untilPdu, Message.offsets,
    List.length_append, hthree, hone, List.length_singleton]
  refine ⟨?_, ?_, ?_, ?_⟩ <;> omega

/-- The request has its answer in place: its offsets are those of the parts
that are still to be written. -/
structure Prepared (m : Message) (r : SnmpRequest σ) : Prop where
  requestOutType : r.requestOutType = context ||| pduGetResp
  pdu : r.outboundPduOffset = m.offsets.pdu
  errorStatus : r.outboundErrorStatusOffset = m.offsets.errorStatus
  errorIndex : r.outboundErrorIndexOffset = m.offsets.errorIndex
  varbind : r.outboundVarbindOffset = m.offsets.varbind

/-- What is left of the completion behind the status of the error, -/
def restCompletion (m : Message) (index frameSize : ℕ) : Asn1 Unit := do
  encOne .val m.offsets.errorIndex index
  snmpPbufStreamSeekAbs (m.offsets.varbind - 1 - 3)
  let _ ← snmpAns1EncTlv ⟨asn1Sequence, 0, 3, frameSize - m.offsets.varbind⟩

/-- and with it. -/
def statusCompletion (m : Message) (status index frameSize : ℕ) : Asn1 Unit := do
  encOne .arg m.offsets.errorStatus status
  restCompletion m index frameSize

theorem exec_completion_pdu {r : SnmpRequest σ} (hr : Prepared m r) {frameSize : ℕ}
    (hsize : frameSize < 2 ^ 16) {s : Stream} (h : Behind s (m.row tail 0 0 0 0 0) 0) : ∃ t,
    exec (encCompletion r frameSize) s =
      exec (statusCompletion m r.errorStatus.toNat (finalIndex r) frameSize) t ∧
      Behind t (m.row tail (frameSize - 1 - 3) (frameSize - m.offsets.pdu - 1 - 3) 0 0 0)
        m.offsets.errorStatus := by
  obtain ⟨hpdu, -, -, -⟩ := length_until (m := m) (frameSize - 1 - 3)
    (frameSize - m.offsets.pdu - 1 - 3) 0
  have hbetween : 4 ≤ m.offsets.pdu ∧ m.offsets.pdu + 4 ≤ m.offsets.errorStatus := by
    simp only [Message.offsets]
    omega
  obtain ⟨hfour, hbeforeStatus⟩ := hbetween
  rw [encCompletion, hr.pdu, hr.requestOutType, hr.errorStatus, hr.errorIndex, hr.varbind]
  -- the whole
  have hrow : ∀ whole, m.row tail whole 0 0 0 0 = [] ++ (headOctets asn1Sequence 3 whole ++
      ((m.row tail whole 0 0 0 0).drop 4)) := fun _ => rfl
  rw [hrow] at h
  obtain ⟨t₁, hexec₁, h₁⟩ := (writes_long asn1Sequence rfl
    (show frameSize - 1 - 3 < 2 ^ 16 by omega)).patch h (Nat.le_zero.1 h.offset) rfl
  have h₁ : Behind t₁ (m.row tail (frameSize - 1 - 3) 0 0 0 0) m.offsets.pdu := h₁.mono hfour
  rw [row_pdu, ← hpdu] at h₁
  -- the PDU
  obtain ⟨t₂, hexec₂, h₂, ho₂⟩ := exec_seekAbs h₁ (by rw [List.length_append]; omega)
  obtain ⟨t₃, hexec₃, h₃⟩ := (writes_long (context ||| pduGetResp) (by decide)
    (show frameSize - m.offsets.pdu - 1 - 3 < 2 ^ 16 by omega)).patch h₂ ho₂ rfl
  have h₃ := h₃.mono
    (show (m.untilPdu (frameSize - 1 - 3)).length + 4 ≤ m.offsets.errorStatus by omega)
  rw [← row_pdu] at h₃
  refine ⟨t₃, ?_, h₃⟩
  rw [exec_bind_ok hexec₁, ← hpdu, exec_bind_ok hexec₂, hpdu, exec_bind_ok hexec₃]
  rfl

theorem exec_completion_status {r : SnmpRequest σ} (hr : Prepared m r) {frameSize : ℕ}
    (hsize : frameSize < 2 ^ 16) (hs : snmpAsn1EncS32tCnt r.errorStatus.toNat = 1) {s : Stream}
    (h : Behind s (m.row tail 0 0 0 0 0) 0) : ∃ t,
    exec (encCompletion r frameSize) s = exec (restCompletion m (finalIndex r) frameSize) t ∧
      Behind t (m.row tail (frameSize - 1 - 3) (frameSize - m.offsets.pdu - 1 - 3)
        r.errorStatus.toNat 0 0) m.offsets.errorIndex := by
  obtain ⟨-, hstatus, -, -⟩ := length_until (m := m) (frameSize - 1 - 3)
    (frameSize - m.offsets.pdu - 1 - 3) r.errorStatus.toNat
  have hzero : snmpAsn1EncS32tCnt 0 = 1 := rfl
  have hbeforeIndex : m.offsets.errorStatus + 1 ≤ m.offsets.errorIndex := by
    simp only [Message.offsets]
    omega
  obtain ⟨t, hexec, ht⟩ := exec_completion_pdu hr hsize h
  rw [row_status hzero, ← hstatus] at ht
  obtain ⟨t₁, hexec₁, h₁⟩ := exec_encOne .arg hs ht
  rw [← row_status hs, hstatus] at h₁
  refine ⟨t₁, ?_, h₁.mono hbeforeIndex⟩
  rw [hexec, statusCompletion, ← hstatus, exec_bind_ok hexec₁]

/-- A status of more than one octet has no place. -/
theorem exec_completion_unknown {r : SnmpRequest σ} (hr : Prepared m r) {frameSize : ℕ}
    (hsize : frameSize < 2 ^ 16) (hs : snmpAsn1EncS32tCnt r.errorStatus.toNat ≠ 1) {s : Stream}
    (h : Behind s (m.row tail 0 0 0 0 0) 0) : ∃ t,
    exec (encCompletion r frameSize) s = (.error .arg, t) := by
  obtain ⟨t, hexec, -⟩ := exec_completion_pdu hr hsize h
  refine ⟨t, ?_⟩
  rw [hexec, statusCompletion, exec_bind, exec_encOne_fail .arg _ hs]

/-- **The answer is completed in its place**: the lengths, the status and
the index go where room was left for them, and everything else stays. -/
theorem exec_completion {r : SnmpRequest σ} (hr : Prepared m r) {frameSize : ℕ}
    (hsize : frameSize < 2 ^ 16) (hs : snmpAsn1EncS32tCnt r.errorStatus.toNat = 1)
    (hi : snmpAsn1EncS32tCnt (finalIndex r) = 1) {s : Stream}
    (h : Behind s (m.row tail 0 0 0 0 0) 0) : ∃ t,
    exec (encCompletion r frameSize) s = (.ok (), t) ∧
      t.cells = m.row tail (frameSize - 1 - 3) (frameSize - m.offsets.pdu - 1 - 3)
        r.errorStatus.toNat (finalIndex r) (frameSize - m.offsets.varbind) := by
  obtain ⟨-, -, hindex, hlist⟩ := length_until (m := m) (frameSize - 1 - 3)
    (frameSize - m.offsets.pdu - 1 - 3) r.errorStatus.toNat
  obtain ⟨t, hexec, ht⟩ := exec_completion_status hr hsize hs h
  have hzero : snmpAsn1EncS32tCnt 0 = 1 := rfl
  rw [row_index hs hzero, ← hindex] at ht
  obtain ⟨t₁, hexec₁, h₁⟩ := exec_encOne .val hi ht
  rw [← row_index hs hi, ← hlist] at h₁
  -- the list of the varbinds
  have hlast : (m.untilIndex (frameSize - 1 - 3) (frameSize - m.offsets.pdu - 1 - 3)
      r.errorStatus.toNat ++ [UInt8.ofNat (finalIndex r)]).length = m.offsets.varbind - 1 - 3 := by
    rw [List.length_append, hlist]
    rfl
  rw [row_list hs hi, ← hlast] at h₁
  obtain ⟨t₂, hexec₂, h₂, ho₂⟩ := exec_seekAbs h₁ (by simp only [List.length_append]; omega)
  obtain ⟨t₃, hexec₃, h₃⟩ := (writes_long asn1Sequence rfl
    (show frameSize - m.offsets.varbind < 2 ^ 16 by omega)).patch h₂ ho₂ rfl
  refine ⟨t₃, ?_, ?_⟩
  · rw [hexec, restCompletion, ← hindex, exec_bind_ok hexec₁, ← hlast, exec_bind_ok hexec₂,
      exec_bind_ok hexec₃]
    rfl
  · rw [h₃.cells, row_list hs hi]

/-- An index of more than one octet has no place. -/
theorem exec_completion_fail {r : SnmpRequest σ} (hr : Prepared m r) {frameSize : ℕ}
    (hsize : frameSize < 2 ^ 16) (hs : snmpAsn1EncS32tCnt r.errorStatus.toNat = 1)
    (hi : snmpAsn1EncS32tCnt (finalIndex r) ≠ 1) {s : Stream}
    (h : Behind s (m.row tail 0 0 0 0 0) 0) : ∃ t,
    exec (encCompletion r frameSize) s = (.error .val, t) := by
  obtain ⟨t, hexec, -⟩ := exec_completion_status hr hsize hs h
  refine ⟨t, ?_⟩
  rw [hexec, restCompletion, exec_bind, exec_encOne_fail .val _ hi]

end

/-! ## The frame that is sent -/

section

variable {m : Message} {vbs rest : List UInt8} {status index : ℕ}

theorem length_answer (m : Message) (vbs : List UInt8) (hs : snmpAsn1EncS32tCnt status = 1)
    (hi : snmpAsn1EncS32tCnt index = 1) (whole pdu list : ℕ) :
    ((m.answer status index vbs).front (long whole) (long pdu) (long list)).length =
      m.offsets.varbind := by
  have hthree : ∀ n, 0 < (long n).lengthLen := fun _ => Nat.succ_pos 2
  have hfront := length_front (m.answer status index vbs) (hthree whole) (hthree pdu) (hthree list)
  have hfields : (m.answer status index vbs).first = status ∧
      (m.answer status index vbs).second = index := ⟨rfl, rfl⟩
  rw [hfields.1, hfields.2, length_integer_one hs, length_integer_one hi] at hfront
  rw [hfront]
  simp only [Message.offsets, Message.answer]

/-- The lengths that are completed are those of the message. -/
theorem row_octets (hs : snmpAsn1EncS32tCnt status = 1) (hi : snmpAsn1EncS32tCnt index = 1)
    {frameSize : ℕ} (hsize : frameSize = m.offsets.varbind + vbs.length) :
    (m.row (vbs ++ rest) (frameSize - 1 - 3) (frameSize - m.offsets.pdu - 1 - 3) status index
      (frameSize - m.offsets.varbind)).take frameSize =
      (m.answer status index vbs).octets fun _ => 3 := by
  have hlist : (m.answer status index vbs).list (fun _ => 3) = long (frameSize - m.offsets.varbind) := by
    rw [hsize, Nat.add_sub_cancel_left]
    rfl
  have hpdu : (m.answer status index vbs).pdu (fun _ => 3) =
      long (frameSize - m.offsets.pdu - 1 - 3) := by
    have hlength : ((m.answer status index vbs).pdu fun _ => 3).length =
        frameSize - m.offsets.pdu - 1 - 3 := by
      simp only [Message.pdu, Message.list, Message.answer, Message.offsets,
        length_integer_one hs, length_integer_one hi, hsize]
      omega
    rw [← hlength]
    rfl
  have hwhole : (m.answer status index vbs).whole (fun _ => 3) = long (frameSize - 1 - 3) := by
    have hlength : ((m.answer status index vbs).whole fun _ => 3).length = frameSize - 1 - 3 := by
      simp only [Message.whole, hpdu]
      simp only [Message.answer, Message.offsets, hsize]
      omega
    rw [← hlength]
    rfl
  rw [Message.octets, hlist, hpdu, hwhole, Message.row, ← List.append_assoc]
  refine List.take_left' ?_
  rw [List.length_append, length_answer m [] hs hi, hsize]

end

/-! ## A request and its answer -/

section

variable {m : Message} {communities : Communities} {lengthLen : ℕ → ℕ} {r : SnmpRequest σ}
variable {p : List (List UInt8)} {mem vbs rest : List UInt8} {nodes : σ} {status : UInt8}

/-- A request that is understood, which the chain `p` holds, and its answer
as far as it is prepared in the memory `mem`. -/
structure Ready (m : Message) (lengthLen : ℕ → ℕ) (p : List (List UInt8)) (mem : List UInt8)
    (nodes : σ) (r : SnmpRequest σ) : Prop extends Prepared m r where
  nodes : r.nodes = nodes
  version : r.version = m.version
  requestType : r.requestType = m.type &&& 0x1F
  status : r.errorStatus = snmpErrNoError
  index : r.errorIndex = m.header.errorIndex
  nonRepeaters : r.nonRepeaters = m.header.nonRepeaters
  maxRepetitions : r.maxRepetitions = m.header.maxRepetitions
  octets : p.flatten = m.octets lengthLen
  inboundPbuf : r.inboundPbuf = p
  inboundOffset : r.inboundVarbindOffset =
    (m.front (m.whole lengthLen) (m.pdu lengthLen) (m.list lengthLen)).length
  inboundLen : r.inboundVarbindLen = m.varbinds.length
  inbound : r.inbound =
    snmpVbEnumeratorInit r.inboundPbuf.flatten r.inboundVarbindOffset r.inboundVarbindLen
  outbound : r.outbound = Cursor.put ⟨mem, 0, mem.length⟩ m.blank

theorem length_blank (m : Message) : m.blank.length = m.offsets.varbind :=
  length_answer m [] rfl rfl 0 0 0

/-- The octets that an answer has for its varbinds, in a buffer of 1472. -/
def Message.room (m : Message) : ℕ := 1472 - m.offsets.varbind

theorem Admitted.community_ne (h : Admitted communities lengthLen m) : m.community ≠ [] := by
  intro hnone
  have hletIn : Agent.letIn communities (m.type &&& 0x1F) m.community = some snmpErrNoError :=
    h.letIn
  rw [hnone, Agent.letIn, if_pos List.length_nil] at hletIn
  cases hletIn

theorem Admitted.varbind_le (h : Admitted communities lengthLen m) : m.offsets.varbind ≤ 1472 := by
  have hid := length_integerOctets m.requestId
  have hversion := length_integerOctets m.version
  have hidLe := (encS32tCnt_le m.requestId).2
  have hversionLe := (encS32tCnt_le m.version).2
  have hcommunity : m.community.length ≤ 8 := h.community
  simp only [Message.offsets]
  omega

/-- **A request that is let in becomes ready**: its fields are read, the
frame of its answer is written, and what follows is its processing. -/
theorem receive_ready (h : Admitted communities lengthLen m) (hp : p.flatten = m.octets lengthLen)
    (hmem : mem.length = 1472) (find : Nodes σ)
    (set : SnmpRequest σ → Except Err (SnmpRequest σ)) (nodes : σ) : ∃ r,
    Ready m lengthLen p mem nodes r ∧
    snmpReceive communities find set (some mem) nodes p = do
      let r ← process find set r
      let frame ← snmpCompleteOutboundFrame r
      return (frame, r.nodes) := by
  have hfits : m.blank.length ≤ mem.length := by
    rw [length_blank, hmem]
    exact h.varbind_le
  have hframe := writes_frame m h.version_lt h.requestId h.community_ne h.community
    ⟨mem, 0, mem.length⟩ (Nat.zero_add _).le rfl hfits
  have hparse := parse_eq h hp nodes
  dsimp only at hparse
  rcases hfirst : snmpParseInboundFrame communities nodes p with err | r₀
  · rw [hfirst] at hparse
    cases hparse
  rw [hfirst] at hparse
  have hr₀ := Except.ok.inj hparse
  refine ⟨{ r₀ with
    outbound := Cursor.put ⟨mem, 0, mem.length⟩ m.blank
    outboundPduOffset := m.offsets.pdu
    outboundErrorStatusOffset := m.offsets.errorStatus
    outboundErrorIndexOffset := m.offsets.errorIndex
    outboundVarbindOffset := m.offsets.varbind }, ?_, ?_⟩
  · rw [hr₀]
    refine ⟨⟨rfl, rfl, rfl, rfl, rfl⟩, rfl, rfl, rfl, rfl, rfl, rfl, rfl, hp, rfl, rfl, rfl, ?_, rfl⟩
    dsimp only
    rw [hp]
  · rw [snmpReceive, hfirst]
    show (snmpPrepareOutboundFrame (some mem) r₀ >>= _) = _
    rw [snmpPrepareOutboundFrame, hr₀]
    dsimp only
    rw [hframe]
    rfl

theorem ok_bind {ε α β : Type} (v : α) (f : α → Except ε β) : (Except.ok v >>= f) = f v := rfl

/-- The frame, where its varbinds are in place. -/
theorem complete_eq {r' : SnmpRequest σ}
    (hstatus : finalStatus r.version r.requestType r.errorStatus = some status)
    (hreturn : returnVarbinds { r with errorStatus := status } = .ok r') (hr : Prepared m r')
    (hsame : r'.errorStatus = status) (hcells : r'.outbound.cells = m.blank ++ (vbs ++ rest))
    (hoffset : r'.outbound.offset = m.offsets.varbind + vbs.length)
    (hsize : r'.outbound.offset < 2 ^ 16) :
    snmpCompleteOutboundFrame r = if snmpAsn1EncS32tCnt status.toNat ≠ 1 then .error .arg
      else if snmpAsn1EncS32tCnt (finalIndex r') ≠ 1 then .error .val
      else .ok ((m.answer status.toNat (finalIndex r') vbs).octets fun _ => 3) := by
  have hrow : Behind ⟨r'.outbound.cells, 0, r'.outbound.cells.length⟩
      (m.row (vbs ++ rest) 0 0 0 0 0) 0 := by
    refine ⟨hcells, le_refl 0, ?_⟩
    rw [hcells]
    exact Nat.zero_add _
  rw [snmpCompleteOutboundFrame, hstatus]
  dsimp only
  rw [hreturn, ok_bind]
  by_cases hcnt : snmpAsn1EncS32tCnt status.toNat = 1
  swap
  · obtain ⟨t, hexec⟩ := exec_completion_unknown hr hsize (by rwa [hsame]) hrow
    rw [hexec, if_pos hcnt]
    rfl
  have hs : snmpAsn1EncS32tCnt r'.errorStatus.toNat = 1 := by rw [hsame, hcnt]
  rw [if_neg (not_not_intro hcnt)]
  by_cases hi : snmpAsn1EncS32tCnt (finalIndex r') = 1
  · obtain ⟨t, hexec, ht⟩ := exec_completion hr hsize hs hi hrow
    rw [hexec, if_neg (not_not_intro hi)]
    dsimp only
    rw [ht, hsame, row_octets hcnt hi hoffset]
  · obtain ⟨t, hexec⟩ := exec_completion_fail hr hsize hs hi hrow
    rw [hexec, if_pos hi]
    rfl

/-- The index in an answer: where the request has left none, the names
that were tried. -/
def replyIndex (status : UInt8) (index count : ℕ) : ℕ :=
  if status ≠ snmpErrNoError then
    if status = snmpErrTooBig then 0 else if index = 0 then count else index
  else index

/-- The varbinds of a message are copied whole from the chain that holds
it, as far as there is room for them in an answer. -/
def Message.Copied (m : Message) (lengthLen : ℕ → ℕ) (p : List (List UInt8)) : Prop :=
  InPlace p (m.front (m.whole lengthLen) (m.pdu lengthLen) (m.list lengthLen)).length
    (min m.varbinds.length m.room)

instance (m : Message) (lengthLen : ℕ → ℕ) (p : List (List UInt8)) :
    Decidable (m.Copied lengthLen p) := inferInstanceAs (Decidable (InPlace _ _ _))

/-- A message in one pbuf has its varbinds copied right, whatever they are. -/
theorem copied_single (lengthLen : ℕ → ℕ) (m : Message) :
    m.Copied lengthLen [m.octets lengthLen] := by
  have hle : min m.varbinds.length m.room ≤ m.varbinds.length := Nat.min_le_left _ _
  refine inPlace_single ?_
  rw [length_octets]
  omega

/-- **What is sent**, and the nodes behind it: the answers, or where there
is an error the varbinds of the request. Nothing is sent where the index has
more than one octet; and where the varbinds are not in place in the chain
that holds the request, the code reads behind the end of a pbuf. In one pbuf
they always are (`copied_single`). -/
def Message.reply (m : Message) (lengthLen : ℕ → ℕ) (p : List (List UInt8)) (answers : Answers σ)
    (status : UInt8) (index count : ℕ) : Except Err (List UInt8 × σ) :=
  if status ≠ snmpErrNoError ∧ ¬ m.Copied lengthLen p then .error .outside
  else if snmpAsn1EncS32tCnt (replyIndex status index count) ≠ 1 then .error .val
  else .ok ((m.answer status.toNat (replyIndex status index count)
    (if status = snmpErrNoError then Agent.octets answers.varbinds else m.varbinds.take m.room)).octets
    fun _ => 3, answers.nodes)

/-- What stands in the memory behind the answers: the frame as it was
prepared, the answers, and whatever was there. -/
theorem Ready.cells (hr : Ready m lengthLen p mem nodes r) (h : Admitted communities lengthLen m)
    (hmem : mem.length = 1472) (vbs : List UInt8) : ∃ rest,
    (r.outbound.put vbs).cells = m.blank ++ (vbs ++ rest) ∧
    (r.outbound.put vbs).offset = m.offsets.varbind + vbs.length := by
  have hblank := length_blank m
  have hfits : m.blank.length ≤ mem.length := by
    rw [hblank, hmem]
    exact h.varbind_le
  have hput : r.outbound.put vbs = Cursor.put ⟨mem, 0, mem.length⟩ (m.blank ++ vbs) := by
    rw [hr.outbound, Cursor.put_put (Nat.zero_add _).le hfits]
  refine ⟨mem.drop (0 + (m.blank ++ vbs).length), ?_, ?_⟩
  · rw [hput, Cursor.put, List.take_zero, List.nil_append, List.append_assoc]
  · rw [hput, Cursor.put, List.length_append, hblank, Nat.zero_add]

theorem Ready.room (hr : Ready m lengthLen p mem nodes r) (hmem : mem.length = 1472) :
    r.outbound.length = m.room := by
  rw [hr.outbound, Cursor.put, length_blank, hmem, Message.room]

theorem Ready.within (hr : Ready m lengthLen p mem nodes r) (h : Admitted communities lengthLen m)
    (hmem : mem.length = 1472) : r.outbound.Within := by
  rw [hr.outbound]
  refine Cursor.Within.put (Nat.zero_add _).le ?_
  rw [length_blank, hmem]
  exact h.varbind_le

/-- The memory is as long as it was, where the answers fit. -/
theorem Ready.length_cells (hr : Ready m lengthLen p mem nodes r) (h : Admitted communities lengthLen m)
    (hmem : mem.length = 1472) {vbs : List UInt8} (hfits : vbs.length ≤ m.room) :
    (r.outbound.put vbs).cells.length = 1472 := by
  have hvarbind := h.varbind_le
  rw [Cursor.length_cells_put (hr.within h hmem) (hfits.trans_eq (hr.room hmem).symm), hr.outbound,
    Cursor.length_cells_put (Nat.zero_add _).le]
  · exact hmem
  · rw [length_blank, hmem]
    exact hvarbind

/-- Where there is an error, and behind a SET, the varbinds of the request
are copied into the answer. -/
theorem returnVarbinds_own (h : Admitted communities lengthLen m) (hmem : mem.length = 1472)
    (hr : Ready m lengthLen p mem nodes r) {answers : Answers σ}
    (hfits : (octets answers.varbinds).length ≤ m.room)
    (hown : status ≠ snmpErrNoError ∨ m.type &&& 0x1F = pduSetReq) (e : Enumerator) (index : ℕ) :
    returnVarbinds
      { answered r answers with inbound := e, errorStatus := status, errorIndex := index } =
      if m.Copied lengthLen p then .ok
        { answered r answers with
          inbound := e
          errorStatus := status
          errorIndex := index
          outbound := Cursor.put ⟨(r.outbound.put (octets answers.varbinds)).cells,
            m.offsets.varbind, m.room⟩ (m.varbinds.take m.room) }
      else .error .outside := by
  have hvarbind := h.varbind_le
  have hlength := hr.length_cells h hmem hfits
  have hwithin : Cursor.Within ⟨(r.outbound.put (octets answers.varbinds)).cells,
      m.offsets.varbind, m.room⟩ := by
    show m.offsets.varbind + (1472 - m.offsets.varbind) ≤
      (r.outbound.put (octets answers.varbinds)).cells.length
    omega
  have hwrite : exec _ _ = if m.Copied lengthLen p then
      (Except.ok (), Cursor.put _ (m.varbinds.take m.room)) else (Except.error Err.outside, _) :=
    exec_writeto (m.front (m.whole lengthLen) (m.pdu lengthLen) (m.list lengthLen)) m.varbinds
      hr.octets hwithin
  refine (if_pos (hown.imp_right hr.requestType.trans)).trans ?_
  dsimp only [answered]
  rw [hr.inboundPbuf, hr.inboundOffset, hr.inboundLen, hr.varbind, hlength, ← Message.room, hwrite]
  by_cases hcopied : m.Copied lengthLen p
  · rw [if_pos hcopied, if_pos hcopied]
  · rw [if_neg hcopied, if_neg hcopied]
    rfl

/-- What is sent then. -/
theorem complete_own (h : Admitted communities lengthLen m) (hmem : mem.length = 1472)
    (hr : Ready m lengthLen p mem nodes r) {answers : Answers σ}
    (hfits : (octets answers.varbinds).length ≤ m.room) {told : UInt8}
    (hfinal : finalStatus m.version (m.type &&& 0x1F) told = some status)
    (hown : status ≠ snmpErrNoError ∨ m.type &&& 0x1F = pduSetReq) (e : Enumerator) (index : ℕ) :
    snmpCompleteOutboundFrame
        { answered r answers with inbound := e, errorStatus := told, errorIndex := index } =
      if ¬ m.Copied lengthLen p then .error .outside
      else if snmpAsn1EncS32tCnt status.toNat ≠ 1 then .error .arg
      else if snmpAsn1EncS32tCnt (replyIndex status index e.varbindCount) ≠ 1 then .error .val
      else .ok ((m.answer status.toNat (replyIndex status index e.varbindCount)
        (m.varbinds.take m.room)).octets fun _ => 3) := by
  obtain ⟨rest, hcells, hoffset⟩ := hr.cells h hmem (octets answers.varbinds)
  have hvarbind := h.varbind_le
  have hroom : m.room = 1472 - m.offsets.varbind := rfl
  have hreturn := returnVarbinds_own h hmem hr hfits hown e index
  rw [← hr.version, ← hr.requestType] at hfinal
  by_cases hcopied : m.Copied lengthLen p
  swap
  · rw [if_neg hcopied] at hreturn
    rw [if_pos hcopied, snmpCompleteOutboundFrame]
    dsimp only [answered] at hfinal hreturn ⊢
    rw [hfinal]
    dsimp only
    rw [hreturn]
    rfl
  rw [if_pos hcopied] at hreturn
  rw [if_neg (not_not_intro hcopied)]
  have hblank :
      (r.outbound.put (octets answers.varbinds)).cells.take m.offsets.varbind = m.blank := by
    rw [hcells, ← length_blank, List.take_left]
  have htaken : (m.varbinds.take m.room).length ≤ m.room := by
    rw [List.length_take]
    omega
  exact complete_eq (r := { answered r answers with
      inbound := e, errorStatus := told, errorIndex := index }) hfinal hreturn
    ⟨hr.requestOutType, hr.pdu, hr.errorStatus, hr.errorIndex, hr.varbind⟩ rfl
    (by rw [Cursor.put, hblank, List.append_assoc]) rfl
    (show m.offsets.varbind + (m.varbinds.take m.room).length < 2 ^ 16 by omega)

/-- **What is sent behind answers** is the reply: the answers, or the
request's own varbinds with the error. -/
theorem complete_answered (h : Admitted communities lengthLen m) (hmem : mem.length = 1472)
    (hr : Ready m lengthLen p mem nodes r) {answers : Answers σ}
    (hfits : (octets answers.varbinds).length ≤ m.room) {told : UInt8}
    (hfinal : finalStatus m.version (m.type &&& 0x1F) told = some status)
    (hcnt : snmpAsn1EncS32tCnt status.toNat = 1) (hset : m.type &&& 0x1F ≠ pduSetReq)
    (e : Enumerator) (index : ℕ) : (do
      let frame ← snmpCompleteOutboundFrame
        { answered r answers with inbound := e, errorStatus := told, errorIndex := index }
      return (frame, answers.nodes)) = m.reply lengthLen p answers status index e.varbindCount := by
  rw [Message.reply]
  by_cases hzero : status = snmpErrNoError
  · -- the answers stay
    obtain ⟨rest, hcells, hoffset⟩ := hr.cells h hmem (octets answers.varbinds)
    have hvarbind := h.varbind_le
    have hroom : m.room = 1472 - m.offsets.varbind := rfl
    rw [← hr.version, ← hr.requestType] at hfinal
    have hreturn : returnVarbinds
        { { answered r answers with inbound := e, errorStatus := told, errorIndex := index } with
          errorStatus := status } = .ok
        { answered r answers with inbound := e, errorStatus := status, errorIndex := index } := by
      refine if_neg ?_
      rintro (hne | heq)
      · exact hne hzero
      · exact hset (hr.requestType.symm.trans heq)
    have hcomplete := complete_eq (r := { answered r answers with
        inbound := e, errorStatus := told, errorIndex := index }) hfinal hreturn
      ⟨hr.requestOutType, hr.pdu, hr.errorStatus, hr.errorIndex, hr.varbind⟩ rfl hcells hoffset
      (show (r.outbound.put (octets answers.varbinds)).offset < 2 ^ 16 by omega)
    have hindex : finalIndex { answered r answers with
        inbound := e, errorStatus := status, errorIndex := index } =
        replyIndex status index e.varbindCount := rfl
    rw [hindex, if_neg (not_not_intro hcnt)] at hcomplete
    have hanswered : ¬ (status ≠ snmpErrNoError ∧ ¬ m.Copied lengthLen p) := fun h => h.1 hzero
    rw [hcomplete, if_pos hzero, if_neg hanswered]
    split_ifs
    · rfl
    · rfl
  · rw [complete_own h hmem hr hfits hfinal (.inl hzero), if_neg hzero,
      if_neg (not_not_intro hcnt)]
    by_cases hcopied : m.Copied lengthLen p
    · have hsent : ¬ (status ≠ snmpErrNoError ∧ ¬ m.Copied lengthLen p) := fun h => h.2 hcopied
      rw [if_neg (not_not_intro hcopied), if_neg hsent]
      split_ifs
      · rfl
      · rfl
    · rw [if_pos hcopied, if_pos ⟨hzero, hcopied⟩]
      rfl

end

/-! ## What is told of an error -/

/-- The status of an answer, in the words of its version. -/
def worded (version : ℕ) (status : UInt8) : UInt8 :=
  if version = snmpVersion1 ∧ status ≠ snmpErrNoError then
    if isMissing status then snmpErrNoSuchName else snmpErrGenError
  else status

/-- The statuses that names which were asked can leave: none, too big,
general, or in version 1 an exception's. -/
def Known (version : ℕ) (status : UInt8) : Prop :=
  status = snmpErrNoError ∨ status = snmpErrTooBig ∨ status = snmpErrGenError ∨
    snmpVarbindExceptionOffset ≤ status ∧ version = snmpVersion1

section

variable {version : ℕ} {getNext : Bool} {status : UInt8} {oid : List UInt32} {n n' : σ}

theorem known_ask (hversion : version = snmpVersion1 ∨ version = snmpVersion2c)
    (hask : ask find getNext version oid n = (.error status, n')) : Known version status := by
  rw [ask] at hask
  rcases hfound : find getNext version oid n with ⟨status' | ⟨found, type, value⟩, n₁⟩
  · rw [hfound] at hask
    dsimp only at hask
    split_ifs at hask with hexception hexceptions
    · cases hask
    · obtain rfl := Except.error.inj (congrArg Prod.fst hask)
      exact .inr (.inr (.inr ⟨hexception, hversion.resolve_right fun h => hexceptions (.inl h)⟩))
    · obtain rfl := Except.error.inj (congrArg Prod.fst hask)
      exact .inr (.inr (.inl rfl))
  · rw [hfound] at hask
    rcases value with _ | value
    · obtain rfl := Except.error.inj (congrArg Prod.fst hask)
      exact .inr (.inr (.inl rfl))
    · cases hask

theorem known_askAll (find : Nodes σ) (getNext : Bool)
    (hversion : version = snmpVersion1 ∨ version = snmpVersion2c) (oids : List (List UInt32))
    (room : ℕ) (n : σ) :
    Known version (askAll find getNext version oids room n).errorStatus := by
  induction oids generalizing room n with
  | nil => exact .inl rfl
  | cons oid oids ih =>
    rw [askAll]
    rcases hask : ask find getNext version oid n with ⟨status | vb, n'⟩
    · exact known_ask hversion hask
    · dsimp only
      split_ifs with hroom
      · exact ih _ _
      · exact .inr (.inl rfl)

theorem known_askRows (find : Nodes σ) (hversion : version = snmpVersion1 ∨ version = snmpVersion2c)
    (repetitions : ℕ) (row : List SnmpVarbind) (room : ℕ) (n : σ) :
    Known version (askRows find version repetitions row room n).1.errorStatus := by
  induction repetitions generalizing row room n with
  | zero => exact .inl rfl
  | succ repetitions ih =>
    rw [askRows]
    dsimp only
    split_ifs with hrow hfail hends
    · exact .inl rfl
    · exact known_askAll _ _ hversion _ _ _
    · exact known_askAll _ _ hversion _ _ _
    · exact ih _ _ _

theorem known_bulk (find : Nodes σ) (hversion : version = snmpVersion1 ∨ version = snmpVersion2c)
    (names : List (List UInt32)) (nonRepeaters maxRepetitions room : ℕ) (n : σ) :
    Known version (bulk find version names nonRepeaters maxRepetitions room n).1.errorStatus := by
  rw [bulk]
  dsimp only
  split_ifs with hnone hfail
  · exact known_askAll _ _ hversion _ _ _
  · exact known_askAll _ _ hversion _ _ _
  · exact known_askRows _ hversion _ _ _ _

theorem finalStatus_exception (hge : snmpVarbindExceptionOffset ≤ status) (type : UInt8) :
    finalStatus snmpVersion1 type status = some (worded snmpVersion1 status) := by
  have hnone : ∀ list : List UInt8, list.all (· < snmpVarbindExceptionOffset) = true →
      status ∉ list := fun list hall hmem =>
    UInt8.not_le.2 (of_decide_eq_true (List.all_eq_true.1 hall status hmem)) hge
  have hzero : status ≠ snmpErrNoError := fun h =>
    hnone [snmpErrNoError] rfl (h ▸ List.mem_singleton_self _)
  have hworded : worded snmpVersion1 status =
      if isMissing status then snmpErrNoSuchName else snmpErrGenError := if_pos ⟨rfl, hzero⟩
  rw [finalStatus, if_pos rfl, if_neg hzero, if_neg (hnone [10, 9, 7, 8, 12] rfl),
    if_neg (hnone [6, 17, 11, 18, 16] rfl), hworded]
  split_ifs
  · rfl
  · rfl

/-- **Each error is told**, in the words of the version, and in one octet. -/
theorem finalStatus_eq (hversion : version = snmpVersion1 ∨ version = snmpVersion2c) {type : UInt8}
    (hset : type ≠ pduSetReq) (h : Known version status) :
    finalStatus version type status = some (worded version status) ∧
      snmpAsn1EncS32tCnt (worded version status).toNat = 1 := by
  have hplain : ∀ status : UInt8, status < snmpVarbindExceptionOffset →
      finalStatus snmpVersion2c type status = some status := by
    intro status hlt
    have hmissing : ¬ (type = pduSetReq ∧ isMissing status = true) := fun h => hset h.1
    rw [finalStatus, if_neg (by decide), if_neg hmissing]
    exact if_neg (UInt8.not_le.2 hlt)
  rcases h with rfl | rfl | rfl | ⟨hge, rfl⟩
  · rcases hversion with rfl | rfl
    · exact ⟨rfl, rfl⟩
    · exact ⟨hplain _ (by decide), rfl⟩
  · rcases hversion with rfl | rfl
    · exact ⟨rfl, rfl⟩
    · exact ⟨hplain _ (by decide), rfl⟩
  · rcases hversion with rfl | rfl
    · exact ⟨rfl, rfl⟩
    · exact ⟨hplain _ (by decide), rfl⟩
  · refine ⟨finalStatus_exception hge type, ?_⟩
    rw [worded]
    split_ifs with hvalid hmissing
    · rfl
    · rfl
    · have hzero : status = snmpErrNoError := by
        by_contra hne
        exact hvalid ⟨rfl, hne⟩
      rw [hzero]
      rfl

end

/-! ## The requests that read -/

section

variable {m : Message} {communities : Communities} {lengthLen : ℕ → ℕ} {r : SnmpRequest σ}
variable {p : List (List UInt8)} {mem : List UInt8} {nodes : σ} {names : List (List UInt32)}

/-- The enumerator is in front of the varbinds of the request. -/
theorem Ready.carries (hr : Ready m lengthLen p mem nodes r) {vbs : List SnmpVarbind}
    (hvbs : ∀ vb ∈ vbs, vb.Holds) (hvarbinds : Codes vbs m.varbinds) : Carries r.inbound vbs := by
  have hinbound : r.inbound.pbufStream = ⟨m.octets lengthLen,
      (m.front (m.whole lengthLen) (m.pdu lengthLen) (m.list lengthLen)).length,
      m.varbinds.length⟩ := by
    rw [hr.inbound, hr.inboundPbuf, hr.octets, hr.inboundOffset, hr.inboundLen,
      snmpVbEnumeratorInit]
  refine ⟨?_, hvbs, ?_⟩
  · rw [hinbound, Cursor.Within, length_octets]
  · rw [hinbound, Cursor.window, Message.octets, List.drop_left, List.take_length]
    exact hvarbinds

theorem Ready.asks (hr : Ready m lengthLen p mem nodes r) (hnames : ∀ oid ∈ names, Name oid)
    (hvarbinds : Codes (names.map nullVarbind) m.varbinds) : Asks r.inbound names := by
  have hcarries := hr.carries (holds_names hnames) hvarbinds
  exact ⟨hcarries.within, hnames, hcarries.codes⟩

/-- **What a GET and a GETNEXT are answered**: the answers to their names in
one message, or, where a name fails or the message is full, an error with
their own varbinds. The request comes in any chain of pbufs and has legal
lengths of its sender's, and the nodes answer with what can be appended. -/
theorem receive_read (hfind : Sound find) (h : Admitted communities lengthLen m)
    (hp : p.flatten = m.octets lengthLen) (hmem : mem.length = 1472) (hnames : ∀ oid ∈ names, Name oid)
    (hvarbinds : Codes (names.map nullVarbind) m.varbinds) (getNext : Bool)
    (htype : m.type = context ||| if getNext then pduGetNextReq else pduGetReq)
    (set : SnmpRequest σ → Except Err (SnmpRequest σ)) (nodes : σ) :
    let answers := askAll find getNext m.version names m.room nodes
    snmpReceive communities find set (some mem) nodes p =
      m.reply lengthLen p answers (worded m.version answers.errorStatus) m.second answers.tried := by
  obtain ⟨r, hr, hreceive⟩ := receive_ready h hp hmem find set nodes
  have hasks := hr.asks hnames hvarbinds
  have hle := hasks.length_le
  have hfuel : r.inbound.pbufStream.length + 1 =
      names.length + (r.inbound.pbufStream.length - names.length + 1) := by omega
  obtain ⟨e, hcount, hloop⟩ := requestLoop_eq hfind getNext
    (r.inbound.pbufStream.length - names.length) (hr.within h hmem) hasks hr.status
  rw [← hfuel] at hloop
  have hanswers :
      answers find getNext r names = askAll find getNext m.version names m.room nodes := by
    rw [answers, hr.version, hr.nodes, hr.room hmem]
  have hmasked : m.type &&& 0x1F = if getNext then pduGetNextReq else pduGetReq := by
    rw [htype]
    cases getNext <;> rfl
  have hprocess : process find set r = .ok { asked find getNext r names with inbound := e } := by
    rw [process, if_pos hr.status, hr.requestType]
    cases getNext with
    | false =>
      have hget : m.type &&& 0x1F = pduGetReq := hmasked
      rw [hget, if_pos rfl, snmpProcessGetRequest, hloop]
      rfl
    | true =>
      have hgetNext : m.type &&& 0x1F = pduGetNextReq := hmasked
      rw [hgetNext, if_neg (by decide), if_pos rfl, snmpProcessGetnextRequest, hloop]
      rfl
  have hset : m.type &&& 0x1F ≠ pduSetReq := by
    rw [hmasked]
    cases getNext <;> decide
  obtain ⟨hfinal, hcnt⟩ := finalStatus_eq h.version hset
    (known_askAll find getNext h.version names m.room nodes)
  have hbulk : m.type &&& 0x1F ≠ pduGetBulkReq := by
    rw [hmasked]
    cases getNext <;> decide
  have hindex : m.header.errorIndex = m.second := by rw [Message.header, if_neg hbulk]
  have hzero : e.varbindCount = (askAll find getNext m.version names m.room nodes).tried := by
    rw [hcount, hanswers, hr.inbound, snmpVbEnumeratorInit, Nat.zero_add]
  have hfits : (octets (askAll find getNext m.version names m.room nodes).varbinds).length ≤ m.room :=
    askAll_fits _ _ _
  have hreply := complete_answered h hmem hr hfits hfinal hcnt hset e r.errorIndex
  dsimp only
  rw [← hzero, ← hindex, ← hr.index, ← hreply, hreceive, hprocess, asked, hanswers]
  rfl

/-- A tree with one scalar, the INTEGER 5, for GET and for GETNEXT. -/
def scalar : Nodes Unit := fun getNext _ oid n =>
  let found : NodeInstance := ⟨[1, 3, 6, 1, 0], asn1Integer, some (false, [5, 0, 0, 0])⟩
  (match getNext with
    | false => if oid = found.oid then .ok found else .error 0xF0
    | true => if oid < found.oid then .ok found else .error 0xF2, n)

theorem sound_scalar : Sound scalar := by
  have hsent : Sent ⟨[1, 3, 6, 1, 0], asn1Integer, false, 4, [5, 0, 0, 0]⟩ :=
    SnmpVarbind.Holds.sent ⟨by decide, by decide, rfl, rfl, by decide⟩
  intro getNext version oid n found n' value _ hfound hvalue
  have hfirst := congrArg Prod.fst hfound
  cases getNext with
  | false =>
    replace hfirst : (if oid = [1, 3, 6, 1, 0] then _ else _) = _ := hfirst
    split_ifs at hfirst with heq
    · obtain rfl := Except.ok.inj hfirst
      obtain rfl := Option.some.inj hvalue
      rw [heq]
      exact hsent
  | true =>
    replace hfirst : (if oid < [1, 3, 6, 1, 0] then _ else _) = _ := hfirst
    split_ifs at hfirst with hlt
    · obtain rfl := Except.ok.inj hfirst
      obtain rfl := Option.some.inj hvalue
      exact hsent

/-- A request for the name 1.3.6, in the agent's own coding. -/
def query (type : UInt8) (first second : ℕ) : Message :=
  ⟨snmpVersion2c, [112, 117, 98], context ||| type, 7, first, second,
    octets ([[1, 3, 6]].map nullVarbind)⟩

theorem admitted_query {communities : Communities} {type : UInt8} {first second : ℕ}
    (hrequest : isRequest snmpVersion2c (context ||| type) = true)
    (hletIn : letIn communities ((context ||| type) &&& 0x1F) [112, 117, 98] = some snmpErrNoError)
    (hfirst : first < 2 ^ 32) (hsecond : second < 2 ^ 32)
    (hstatus : (context ||| type) &&& 0x1F ≠ pduGetBulkReq → first = 0)
    (hshort : ((query type first second).whole snmpAsn1EncLengthCnt).length < 0xFFFF) :
    Admitted communities snmpAsn1EncLengthCnt (query type first second) :=
  ⟨.inr rfl, show 3 ≤ 8 by decide, hrequest, hletIn, show 7 < 2 ^ 32 by decide, hfirst, hsecond,
    hstatus, fun n => ⟨le_refl _, (encLengthCnt_le n).2.trans (by decide)⟩, hshort⟩

theorem name_query : ∀ oid ∈ [([1, 3, 6] : List UInt32)], Name oid := by
  intro oid hoid
  obtain rfl := List.mem_singleton.1 hoid
  exact ⟨by decide, by decide⟩

theorem codes_query (type : UInt8) (first second : ℕ) :
    Codes ([[1, 3, 6]].map nullVarbind) (query type first second).varbinds :=
  codes_own fun vb hvb => (holds_names name_query vb hvb).sent

/-- A GETNEXT, of which the last octet has a pbuf of its own. -/
theorem receive_read_next :
    snmpReceive ⟨[112, 117, 98], []⟩ scalar .ok (some (List.replicate 1472 0)) ()
      [((query pduGetNextReq 0 0).octets snmpAsn1EncLengthCnt).take 30, [0]] =
      .ok (((query pduGetNextReq 0 0).answer 0 0
        (varbindOctets ⟨[1, 3, 6, 1, 0], asn1Integer, false, 4, [5, 0, 0, 0]⟩)).octets fun _ => 3,
        ()) := by
  have hadmitted : Admitted ⟨[112, 117, 98], []⟩ snmpAsn1EncLengthCnt (query pduGetNextReq 0 0) :=
    admitted_query rfl rfl (by decide) (by decide) (fun _ => rfl) (by decide)
  exact receive_read sound_scalar hadmitted (by decide) List.length_replicate name_query
    (codes_query pduGetNextReq 0 0) true rfl .ok ()

/-- A GETBULK is not known to the first version. -/
theorem Admitted.bulk_version (h : Admitted communities lengthLen m)
    (htype : m.type = context ||| pduGetBulkReq) : m.version = snmpVersion2c := by
  refine h.version.resolve_left fun hone => ?_
  have hrequest := h.request
  rw [htype, hone] at hrequest
  exact absurd hrequest (by decide)

/-- The status of a GETBULK is told as it is. -/
theorem Admitted.bulk_final (h : Admitted communities lengthLen m)
    (htype : m.type = context ||| pduGetBulkReq) {status : UInt8} (hknown : Known m.version status) :
    finalStatus m.version (m.type &&& 0x1F) status = some status ∧
      snmpAsn1EncS32tCnt status.toNat = 1 ∧ m.type &&& 0x1F ≠ pduSetReq := by
  have hset : m.type &&& 0x1F ≠ pduSetReq := by
    rw [htype]
    decide
  have hworded : worded m.version status = status := by
    rw [h.bulk_version htype]
    exact if_neg fun h => absurd h.1 (by decide)
  have hfinal := finalStatus_eq h.version hset hknown
  rw [hworded] at hfinal
  exact ⟨hfinal.1, hfinal.2, hset⟩

theorem known_told {version : ℕ} {status : UInt8} (h : Known version status) :
    Known version (told status) := by
  rw [told]
  split_ifs
  · exact .inl rfl
  · exact h

/-- A GETBULK is ready: its two counts are read, its index is zero, and its
names are asked in the room of the answer. -/
theorem Ready.bulk (hr : Ready m lengthLen p mem nodes r) (find : Nodes σ) (hmem : mem.length = 1472)
    (htype : m.type = context ||| pduGetBulkReq) :
    m.type &&& 0x1F = pduGetBulkReq ∧ r.nonRepeaters = counted m.first ∧
      r.maxRepetitions = counted m.second ∧ r.errorIndex = 0 ∧ ∀ oids : List (List UInt32),
      answers find true r oids = askAll find true m.version oids m.room nodes := by
  have hmasked : m.type &&& 0x1F = pduGetBulkReq := by
    rw [htype]
    rfl
  refine ⟨hmasked, ?_, ?_, ?_, fun oids => ?_⟩
  · rw [hr.nonRepeaters, Message.header, if_pos hmasked]
  · rw [hr.maxRepetitions, Message.header, if_pos hmasked]
  · rw [hr.index, Message.header, if_pos hmasked]
  · rw [answers, hr.version, hr.nodes, hr.room hmem]

/-- The processing of a GETBULK, which leaves the request as its loops have. -/
theorem process_bulk {r' : SnmpRequest σ} (hok : r.errorStatus = snmpErrNoError)
    (htype : r.requestType = pduGetBulkReq) (hbulk : snmpProcessGetbulkRequest find r = .ok r')
    (set : SnmpRequest σ → Except Err (SnmpRequest σ)) : process find set r = .ok r' := by
  rw [process, if_pos hok, htype, if_neg (by decide), if_neg (by decide), if_pos rfl, hbulk]
  rfl

/-- **What a GETBULK is answered**, where it has a name for each
non-repeater: what `bulk` says, without an error where the message is full.
Behind an error stands the number of the name, or, in a row, its number
behind the non-repeaters. -/
theorem receive_bulk (hfind : Sound find) (h : Admitted communities lengthLen m)
    (hp : p.flatten = m.octets lengthLen) (hmem : mem.length = 1472) (hnames : ∀ oid ∈ names, Name oid)
    (hvarbinds : Codes (names.map nullVarbind) m.varbinds)
    (htype : m.type = context ||| pduGetBulkReq) (hfew : counted m.first ≤ names.length)
    (set : SnmpRequest σ → Except Err (SnmpRequest σ)) (nodes : σ) :
    let answers := bulk find m.version names (counted m.first) (counted m.second) m.room nodes
    let firsts := if counted m.second = 0 then names.take (counted m.first) else names
    snmpReceive communities find set (some mem) nodes p =
      m.reply lengthLen p answers.1 (told answers.1.errorStatus)
        (if answers.2 = 0 then 0 else counted m.first + answers.2)
        (askAll find true m.version firsts m.room nodes).tried := by
  obtain ⟨r, hr, hreceive⟩ := receive_ready h hp hmem find set nodes
  obtain ⟨hmasked, hnon, hmax, hindex, hanswers⟩ := hr.bulk find hmem htype
  obtain ⟨e, hcount, hrun⟩ := getbulk_eq hfind (hr.within h hmem) (hr.asks hnames hvarbinds)
    hr.status (hnon.trans_le hfew)
  rw [hnon, hmax, hr.version, hr.nodes, hr.room hmem] at hrun
  rw [hanswers, firstNames, hmax, hnon, hr.inbound, snmpVbEnumeratorInit, Nat.zero_add] at hcount
  have hprocess := process_bulk hr.status (hr.requestType.trans hmasked) hrun set
  obtain ⟨hfinal, hcnt, hset⟩ := h.bulk_final htype (known_told (known_bulk find h.version names
    (counted m.first) (counted m.second) m.room nodes))
  dsimp only
  rw [← hcount, hreceive, hprocess]
  have hfits : (octets (bulk find m.version names (counted m.first) (counted m.second) m.room
      nodes).1.varbinds).length ≤ m.room := bulk_fits _ _ _ _ _
  have hreply := complete_answered h hmem hr hfits hfinal hcnt hset e
    (rowIndex r (bulk find m.version names (counted m.first) (counted m.second) m.room nodes).2)
  rw [rowIndex, hindex, hnon] at hreply
  rw [rowIndex, hindex, hnon]
  exact hreply

/-- A GETBULK of two repetitions: the scalar, and the end of the view. -/
theorem receive_bulk_two :
    snmpReceive ⟨[112, 117, 98], []⟩ scalar .ok (some (List.replicate 1472 0)) ()
      [(query pduGetBulkReq 0 2).octets snmpAsn1EncLengthCnt] =
      .ok (((query pduGetBulkReq 0 2).answer 0 0
        (octets [⟨[1, 3, 6, 1, 0], asn1Integer, false, 4, [5, 0, 0, 0]⟩,
          ⟨[1, 3, 6, 1, 0], endOfMibView, false, 0, []⟩])).octets fun _ => 3, ()) := by
  have hadmitted : Admitted ⟨[112, 117, 98], []⟩ snmpAsn1EncLengthCnt (query pduGetBulkReq 0 2) :=
    admitted_query rfl rfl (by decide) (by decide) (fun hne => absurd rfl hne) (by decide)
  exact receive_bulk sound_scalar hadmitted List.flatten_singleton List.length_replicate name_query
    (codes_query pduGetBulkReq 0 2) rfl (by decide) .ok ()

/-- **A GETBULK with fewer names than non-repeaters**, of which all have an
answer, and with repetitions, is answered with an error: the loop never
comes to a first repeater, so the row is looked for where the message
begins, and its head is no varbind. -/
theorem receive_bulk_short (hfind : Sound find) (h : Admitted communities lengthLen m)
    (hp : p.flatten = m.octets lengthLen) (hmem : mem.length = 1472) (hnames : ∀ oid ∈ names, Name oid)
    (hvarbinds : Codes (names.map nullVarbind) m.varbinds)
    (htype : m.type = context ||| pduGetBulkReq) (hmany : names.length < counted m.first)
    (hrepetitions : 0 < counted m.second) (nodes : σ)
    (hok : (askAll find true m.version names m.room nodes).errorStatus = snmpErrNoError)
    (set : SnmpRequest σ → Except Err (SnmpRequest σ)) :
    snmpReceive communities find set (some mem) nodes p =
      m.reply lengthLen p (askAll find true m.version names m.room nodes) snmpErrGenError
        (counted m.first + 1) names.length := by
  obtain ⟨r, hr, hreceive⟩ := receive_ready h hp hmem find set nodes
  obtain ⟨hmasked, hnon, hmax, hindex, hanswers⟩ := hr.bulk find hmem htype
  obtain ⟨rest, hcells, hoffset⟩ := hr.cells h hmem []
  rw [r.outbound.put_nil] at hcells hoffset
  have hblank : m.blank.take frontOctets.length = frontOctets := by
    rw [Message.blank, Message.front]
    show List.take 6 (headOctets asn1Sequence 3 0 ++ (integerOctets m.version ++ _)) = _
    rw [h.bulk_version htype]
    rfl
  have hlong : frontOctets.length ≤ m.blank.length := by
    have htaken := congrArg List.length hblank
    rw [List.length_take] at htaken
    omega
  have hfront : r.outbound.cells.take frontOctets.length = frontOctets := by
    rw [hcells, List.take_append_of_le_length hlong, hblank]
  obtain ⟨e, hcount, hrun⟩ := getbulk_short hfind (hr.within h hmem) (hr.asks hnames hvarbinds)
    hr.status (hmany.trans_eq hnon.symm) (hrepetitions.trans_eq hmax.symm)
    (hlong.trans_eq ((length_blank m).trans hoffset.symm)) hfront (by rw [asked, hanswers]; exact hok)
  have hprocess := process_bulk hr.status (hr.requestType.trans hmasked) hrun set
  obtain ⟨hfinal, hcnt, hset⟩ := h.bulk_final htype
    (show Known m.version snmpErrGenError from .inr (.inr (.inl rfl)))
  have hfits : (octets (askAll find true m.version names m.room nodes).varbinds).length ≤ m.room :=
    askAll_fits _ _ _
  have hreply := complete_answered h hmem hr hfits hfinal hcnt hset e (r.nonRepeaters + 1)
  have hzero : e.varbindCount = names.length := by
    rw [hcount, hr.inbound, snmpVbEnumeratorInit, Nat.zero_add]
  rw [← hzero, ← hnon, ← hreply, hreceive, hprocess, asked, hanswers]
  rfl

/-- Two non-repeaters, and one name, which begins a pbuf and ends in the
next. -/
theorem receive_bulk_short_one :
    snmpReceive ⟨[112, 117, 98], []⟩ scalar .ok (some (List.replicate 1472 0)) ()
      [((query pduGetBulkReq 2 1).octets snmpAsn1EncLengthCnt).take 23,
        (query pduGetBulkReq 2 1).varbinds.take 7, [0]] =
      .ok (((query pduGetBulkReq 2 1).answer 5 3 (query pduGetBulkReq 2 1).varbinds).octets fun _ => 3,
        ()) := by
  have hadmitted : Admitted ⟨[112, 117, 98], []⟩ snmpAsn1EncLengthCnt (query pduGetBulkReq 2 1) :=
    admitted_query rfl rfl (by decide) (by decide) (fun hne => absurd rfl hne) (by decide)
  exact receive_bulk_short sound_scalar hadmitted
    (p := [((query pduGetBulkReq 2 1).octets snmpAsn1EncLengthCnt).take 23,
      (query pduGetBulkReq 2 1).varbinds.take 7, [0]]) (by decide) List.length_replicate name_query
    (codes_query pduGetBulkReq 2 1) rfl (by decide) (by decide) () rfl .ok

end

/-! ## Who is not answered -/

section

variable {m : Message} {communities : Communities} {lengthLen : ℕ → ℕ}

/-- The community as it is taken: none, where it is too long. -/
def heard (c : List UInt8) : List UInt8 := if c.length > snmpMaxCommunityStrLen then [] else c

/-- A message that is no request of its version, or that is not let in with
the community that is heard. -/
def Refused (communities : Communities) (m : Message) : Prop :=
  ¬ (m.version = snmpVersion1 ∨ m.version = snmpVersion2c) ∨ isRequest m.version m.type = false ∨
    letIn communities (m.type &&& 0x1F) (heard m.community) = none

/-- A message of any sender: its version is a number of 32 bits, its
community is shorter than 128 octets, and the lengths of its containers are
coded in as many octets as the sender likes, but in enough of them for the
length, and 128 at most. All of it is shorter than 65535 octets. -/
structure Coding (lengthLen : ℕ → ℕ) (m : Message) : Prop where
  version : m.version < 2 ^ 32
  community : m.community.length < 0x80
  type : extended m.type = false
  lengths : ∀ n, snmpAsn1EncLengthCnt n ≤ lengthLen n ∧ lengthLen n ≤ 128
  short : (m.whole lengthLen).length < 0xFFFF

theorem fails_pdu (h : Coding lengthLen m) {c : List UInt8}
    (hrefused : isRequest m.version m.type = false ∨
      letIn communities (m.type &&& 0x1F) c = none) (ds : List UInt8) :
    FailsBefore m.varbinds (decPdu communities m.version c)
      (headOctets m.type (m.pdu lengthLen).lengthLen (m.pdu lengthLen).length ++ ds) .arg := by
  have hshort : (m.pdu lengthLen).length < 0xFFFF := by
    have hwhole := h.short
    have hlength := length_whole lengthLen m
    omega
  have hhead := reads_decTlv m.type h.type (h.lengths (m.pdu lengthLen).length).1
    (h.lengths (m.pdu lengthLen).length).2 hshort
  rw [decPdu]
  refine FailsBefore.bind (hhead.before _) (FailsBefore.left ?_)
  dsimp only
  by_cases hlong : (m.pdu lengthLen).length ≤ ds.length + m.varbinds.length
  swap
  · rw [if_pos hlong]
    exact FailsBefore.throw.first
  rw [if_neg (not_not_intro hlong)]
  by_cases hrequest : isRequest m.version m.type = true
  swap
  · rw [if_pos hrequest]
    exact FailsBefore.throw.first
  rw [if_neg (not_not_intro hrequest),
    hrefused.resolve_left fun h => Bool.false_ne_true (h.symm.trans hrequest)]
  exact FailsBefore.throw

theorem reads_seek (cs : List UInt8) :
    Reads (Code.ignore (snmpPbufStreamSeek cs.length) : Asn1 Unit) cs () := by
  intro s rest hs hwindow
  have hfits : cs.length ≤ s.length := by
    rw [← Cursor.length_window hs, hwindow, List.length_append]
    omega
  have hseek : exec (snmpPbufStreamSeek cs.length) s = (.ok (), s.skip cs.length) :=
    if_neg (not_lt.2 hfits)
  show (Except.ok (), (exec (snmpPbufStreamSeek cs.length) s).2) = _
  rw [hseek]

theorem reads_heard {parent : ℤ} {c : List UInt8} (hc : c.length < 0x80)
    (hparent : (2 + c.length : ℤ) < parent) :
    Reads (decCommunity parent) (headOctets asn1OctetString 1 c.length ++ c) (heard c) := by
  rw [heard]
  by_cases hlong : c.length > snmpMaxCommunityStrLen
  swap
  · rw [if_neg hlong]
    exact reads_community (not_lt.1 hlong) hparent
  have hhead := reads_decTlv asn1OctetString rfl (encLengthCnt_one hc).le (by decide)
    (show c.length < 0xFFFF by omega)
  have htlv : ((Tlv.length ⟨asn1OctetString, 1, 1, c.length⟩ : ℕ) : ℤ) = 2 + c.length := by
    rw [Tlv.length]
    push_cast
    ring
  rw [if_pos hlong, decCommunity]
  refine hhead.bind ?_
  rw [if_neg (not_not_intro rfl), htlv, if_neg (not_not_intro (by omega))]
  dsimp only
  rw [if_pos hlong]
  exact (reads_seek c).map fun _ => []

theorem fails_header (h : Coding lengthLen m) (hrefused : Refused communities m) :
    FailsBefore m.varbinds (decHeader communities)
      (m.front (m.whole lengthLen) (m.pdu lengthLen) (m.list lengthLen)) .arg := by
  have hpos : ∀ n, 0 < lengthLen n := fun n => (encLengthCnt_le n).1.trans_le (h.lengths n).1
  have hwhole : 0 < (m.whole lengthLen).lengthLen := hpos _
  have hpdu : 0 < (m.pdu lengthLen).lengthLen := hpos _
  have hlist : 0 < (m.list lengthLen).lengthLen := hpos _
  have hfront := length_front m hwhole hpdu hlist
  have hlength := length_whole lengthLen m
  have hinner := length_pdu lengthLen m
  have hhead := reads_decTlv asn1Sequence rfl (h.lengths (m.whole lengthLen).length).1
    (h.lengths (m.whole lengthLen).length).2 h.short
  rw [decHeader]
  rw [Message.front, List.length_append, length_headOctets _ _ hwhole] at hfront
  refine FailsBefore.bind (hhead.before _) (FailsBefore.left ?_)
  dsimp only
  rw [if_neg (not_not_intro ⟨rfl, by omega⟩)]
  refine FailsBefore.bind ((reads_integer h.version (by omega)).before _) ?_
  dsimp only
  by_cases hversion : m.version = snmpVersion1 ∨ m.version = snmpVersion2c
  swap
  · rw [if_pos hversion]
    exact FailsBefore.throw.first
  rw [if_neg (not_not_intro hversion), ← List.append_assoc (headOctets asn1OctetString _ _)]
  refine FailsBefore.bind ((reads_heard h.community (by omega)).before _) ?_
  exact fails_pdu h (hrefused.resolve_left (not_not_intro hversion)) _

/-- **Who is not let in is not answered**, and nothing happens: a message of
another version, one that is no request, or one whose community is not the
one it needs ends where its head is read, in front of the nodes and the
memory. -/
theorem receive_refused (h : Coding lengthLen m) (hrefused : Refused communities m)
    {p : List (List UInt8)} (hp : p.flatten = m.octets lengthLen) (find : Nodes σ)
    (set : SnmpRequest σ → Except Err (SnmpRequest σ)) (pbufAlloc : Option (List UInt8)) (nodes : σ) :
    snmpReceive communities find set pbufAlloc nodes p = .error .arg := by
  have hwithin : Cursor.Within ⟨m.octets lengthLen, 0, (m.octets lengthLen).length⟩ :=
    (Nat.zero_add _).le
  have hwindow : Cursor.window ⟨m.octets lengthLen, 0, (m.octets lengthLen).length⟩ =
      m.octets lengthLen := List.take_length
  obtain ⟨t, hfail⟩ := fails_header h hrefused _ hwithin hwindow
  have hparse : snmpParseInboundFrame communities nodes p = .error .arg := by
    rw [snmpParseInboundFrame, hp, hfail]
    rfl
  rw [snmpReceive, hparse]
  rfl

/-- An answer is no request, so the agent does not answer it. -/
theorem receive_refused_answer :
    snmpReceive ⟨[112, 117, 98], []⟩ scalar .ok (some (List.replicate 1472 0)) ()
      [(query pduGetResp 0 0).octets snmpAsn1EncLengthCnt] = .error .arg := by
  have hcoding : Coding snmpAsn1EncLengthCnt (query pduGetResp 0 0) :=
    ⟨by decide, by decide, by decide,
      fun n => ⟨le_refl _, (encLengthCnt_le n).2.trans (by decide)⟩, by decide⟩
  exact receive_refused hcoding (.inr (.inl rfl)) List.flatten_singleton scalar .ok _ ()

end

end Agent

end Snmp

end SlipBoard
