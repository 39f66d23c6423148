import SlipBoard.Snmp.Message
/-!
# SNMP — what the enumerator does with any bytes

Whatever stands in a message, the enumerator reads only in its window.
The varbinds that it accepts stand one behind the other: each begins
where the one before was left, and is left where its sequence ends, but
for a NULL, which is left in front of the octets that it has
(`answered_spec`). The enumerator stores outside of the
array for the value for the object identifiers of more than 32
sub-identifiers and for nothing else (`outside_iff`).
-/

namespace SlipBoard

namespace Snmp

open Bytes Code

variable {s : Stream} {len : ℕ}

/-- An error that a caller is told, and not an access outside the memory. -/
def Told (e : Err) : Prop := e ≠ .outside

instance : DecidablePred Told := fun e => inferInstanceAs (Decidable (e ≠ .outside))

/-! ## The decoders -/

theorem spans_read : Spans snmpPbufStreamRead s (fun _ n => n = 1) Told := by
  show ∃ n ≤ s.length, _
  unfold exec snmpPbufStreamRead
  by_cases hempty : s.length = 0
  · rw [if_pos hempty]
    exact ⟨0, Nat.zero_le _, rfl, fun _ h => (by cases h), fun _ h => (by cases h; decide)⟩
  · rw [if_neg hempty]
    cases s.cells[s.offset]? with
    | none => exact ⟨0, Nat.zero_le _, rfl, fun _ h => (by cases h), fun _ h => (by cases h; decide)⟩
    | some data => exact ⟨1, by omega, rfl, fun _ _ => rfl, fun _ h => by cases h⟩

theorem spans_decLength : ∀ (left valueLen : ℕ) {s : Stream}, s.Within →
    Spans (decLength left valueLen) s (fun _ n => n = left) Told
  | 0, _, _, _ => Spans.pure rfl
  | left + 1, valueLen, s, hs => by
    rw [decLength]
    split_ifs with hlong
    · exact Spans.throw (by decide)
    · refine Spans.bind hs spans_read fun data n hn _ hone => ?_
      dsimp only
      split_ifs with hmost
      · exact Spans.throw (by decide)
      · exact (spans_decLength left _ hn).mono (fun _ m _ hm => by omega) fun _ => id

/-- The head of a value is as long as it says. -/
theorem spans_decTlv (hs : s.Within) :
    Spans snmpAsn1DecTlv s (fun tlv n => n = tlv.typeLen + tlv.lengthLen ∧ 0 < n) Told := by
  rw [snmpAsn1DecTlv]
  refine Spans.bind hs spans_read fun type n hn _ hone => ?_
  split_ifs with hext
  · exact Spans.throw (by decide)
  refine Spans.bind hn spans_read fun data m hm _ htwo => ?_
  split_ifs with hshort hlong
  · exact Spans.pure ⟨by dsimp only; omega, by omega⟩
  · refine Spans.left ?_
    dsimp only
    split_ifs with hroom
    · exact Spans.throw (by decide)
    · refine Spans.bind hm (spans_decLength _ 0 hm) fun valueLen k hk _ hthree => ?_
      exact Spans.pure ⟨by dsimp only; omega, by omega⟩
  · exact Spans.throw (by decide)

theorem spans_decOctets (w : ℕ) : ∀ (len value : ℕ) {s : Stream}, s.Within →
    Spans (decOctets w len value) s (fun _ n => n = len) Told
  | 0, _, _, _ => Spans.pure rfl
  | len + 1, value, s, hs => by
    rw [decOctets]
    refine Spans.bind hs spans_read fun data n hn _ hone => ?_
    exact (spans_decOctets w len _ hn).mono (fun _ m _ hm => by omega) fun _ => id

theorem spans_decUnsigned (w most : ℕ) (hs : s.Within) :
    Spans (decUnsigned w most len) s (fun _ n => n = len) Told := by
  rw [decUnsigned]
  split_ifs with hlen
  · refine Spans.bind hs spans_read fun data n hn _ hone => ?_
    split_ifs with hsign
    · exact (spans_decOctets w _ _ hn).mono (fun _ m _ hm => by omega) fun _ => id
    · exact Spans.throw (by decide)
  · exact Spans.throw (by decide)

theorem spans_decS32t (hs : s.Within) :
    Spans (snmpAsn1DecS32t len) s (fun _ n => n = len) Told := by
  rw [snmpAsn1DecS32t]
  split_ifs with hlen
  · refine Spans.bind hs spans_read fun data n hn _ hone => ?_
    exact (spans_decOctets 32 _ _ hn).mono (fun _ m _ hm => by omega) fun _ => id
  · exact Spans.throw (by decide)

theorem spans_decRaw : ∀ (len : ℕ) {s : Stream}, s.Within →
    Spans (decRaw len) s (fun buf n => n = len ∧ buf.length = len) Told
  | 0, _, _ => Spans.pure ⟨rfl, rfl⟩
  | len + 1, s, hs => by
    rw [decRaw]
    refine Spans.bind hs spans_read fun data n hn _ hone => ?_
    refine Spans.bind hn (spans_decRaw len hn) fun buf m hm _ hbuf => ?_
    exact Spans.pure (by rw [List.length_cons]; omega)

/-- What is left of `len` counts what is read. -/
theorem spans_decMore : ∀ (len : ℕ) (data : UInt8) (subId : UInt32) {s : Stream}, s.Within →
    Spans (decMore len data subId) s (fun v n => v.2 + n = len) Told := by
  intro len
  induction len with
  | zero =>
    intro data subId s hs
    rw [decMore]
    split_ifs with hlast
    · exact Spans.pure rfl
    · exact Spans.throw (by decide)
  | succ len ih =>
    intro data subId s hs
    rw [decMore]
    split_ifs with hlast
    · exact Spans.pure rfl
    · refine Spans.bind hs spans_read fun data' n hn _ hone => ?_
      exact (ih data' _ hn).mono (fun _ m _ hm => by omega) fun _ => id

/-- An array as long as the decoder takes it for is never left. -/
theorem spans_decSubIds {room most : ℕ} : ∀ (rounds len : ℕ) {oid : List UInt32} {s : Stream},
    s.Within → len ≤ rounds → oid.length ≤ most → oid.length ≤ room →
    Spans (decSubIds room most rounds len oid) s
      (fun oid n => n = len ∧ oid.length ≤ most ∧ oid.length ≤ room) (fun e => most ≤ room → Told e)
  | 0, len, oid, s, _, hlen, hmost, hroom => Spans.pure ⟨by omega, hmost, hroom⟩
  | rounds + 1, len, oid, s, hs, hlen, hmost, hroom => by
    rw [decSubIds]
    by_cases hmore : len > 0 ∧ oid.length < most
    · rw [if_pos hmore]
      refine Spans.bind hs (spans_read.mono (fun _ _ _ => id) fun _ h _ => h) fun data n hn _ hone => ?_
      refine Spans.bind hn ((spans_decMore (len - 1) data _ hn).mono (fun _ _ _ => id) fun _ h _ => h)
        fun v m hm _ hleft => ?_
      dsimp only
      by_cases hfull : oid.length ≥ room
      · rw [if_pos hfull]
        exact Spans.throw fun hle => absurd hfull (by omega)
      · rw [if_neg hfull]
        exact (spans_decSubIds rounds v.2 hm (by omega) (by simp; omega) (by simp; omega)).mono
          (fun oid' k _ hk => ⟨by omega, hk.2⟩) fun _ => id
    · rw [if_neg hmore]
      split_ifs with hlong
      · exact Spans.throw fun _ => by decide
      · exact Spans.pure ⟨by omega, hmost, hroom⟩

theorem spans_decOid {room most : ℕ} (hs : s.Within) (hroom : 2 ≤ room) :
    Spans (snmpAsn1DecOid room len most) s
      (fun oid n => n = len ∧ oid.length ≤ most ∧ oid.length ≤ room)
      (fun e => most ≤ room → Told e) := by
  rw [snmpAsn1DecOid]
  by_cases hlen : len > 0
  · rw [if_pos hlen]
    by_cases hmost : most < 2
    · rw [if_pos hmost]
      exact Spans.throw fun _ => by decide
    · rw [if_neg hmost]
      refine Spans.bind hs (spans_read.mono (fun _ _ _ => id) fun _ h _ => h) fun data n hn _ hone => ?_
      dsimp only
      rw [if_neg (by omega)]
      have hfirst : (if data = 0x2B then ([1, 3] : List UInt32)
          else if data < 40 then [0, data.toUInt32]
          else if data < 80 then [1, (data - 40).toUInt32]
          else [2, (data - 80).toUInt32]).length = 2 := by
        split_ifs <;> rfl
      exact (spans_decSubIds len (len - 1) hn (by omega) (by omega) (by omega)).mono
        (fun oid m _ hm => ⟨by omega, hm.2⟩) fun _ => id
  · rw [if_neg hlen]
    exact Spans.pure ⟨by omega, Nat.zero_le _, Nat.zero_le _⟩

/-! ## A varbind -/

theorem parseExec_outside {e : Err} (h : Told e) : vbParseExec e ≠ .outside := by
  cases e with
  | outside => exact absurd rfl h
  | _ => decide

theorem lengthErr_outside {e : Err} (h : Told e) : vbLengthErr e ≠ .outside := by
  cases e with
  | outside => exact absurd rfl h
  | _ => decide

/-- A value is as long as its head says, but for NULL, which is read as
nothing. -/
theorem spans_decValue (type : UInt8) (len : ℕ) (hs : s.Within) :
    Spans (decValue type len) s
      (fun bytes n => bytes.length ≤ snmpMaxValueSize ∧ n = if type = asn1Null then 0 else len)
      (fun e => e = .outside → type = asn1ObjectId) := by
  have htold : ∀ e, Told e → vbParseExec e = .outside → type = asn1ObjectId :=
    fun e he heq => absurd heq (parseExec_outside he)
  have hmem : ∀ e, Told e → vbLengthErr e = .outside → type = asn1ObjectId :=
    fun e he heq => absurd heq (lengthErr_outside he)
  have hfour : ∀ v, (littleEndian 4 v).length ≤ snmpMaxValueSize := fun v => by
    rw [littleEndian, List.length_reverse, length_bigEndian]
    decide
  have height : ∀ v, (littleEndian 8 v).length ≤ snmpMaxValueSize := fun v => by
    rw [littleEndian, List.length_reverse, length_bigEndian]
    decide
  unfold decValue
  by_cases hnull : type = asn1Null
  · rw [hnull]
    exact Spans.pure ⟨Nat.zero_le _, rfl⟩
  rw [if_neg hnull]
  have hraw : ∀ (g : Err → VbErr), (∀ e, Told e → g e = .outside → type = asn1ObjectId) →
      Spans (Code.mapError g (snmpAsn1DecRaw len snmpMaxValueSize)) s
        (fun bytes n => bytes.length ≤ snmpMaxValueSize ∧ n = len)
        (fun e => e = .outside → type = asn1ObjectId) := by
    intro g hg
    refine Spans.mapError g ?_ hg
    rw [snmpAsn1DecRaw]
    split_ifs with hlong
    · exact Spans.throw (by decide)
    · exact (spans_decRaw len hs).mono (fun bytes n _ h => ⟨by omega, h.1⟩) fun _ => id
  split_ifs with hinteger hu32 hraw' hoid hipaddr hcount h64
  · refine Spans.bind hs ((spans_decS32t hs).mapError vbParseExec htold) fun v n _ _ hn => ?_
    exact Spans.pure ⟨hfour v, hn⟩
  · refine Spans.bind hs ((spans_decUnsigned 32 5 hs).mapError vbParseExec htold) fun v n _ _ hn => ?_
    exact Spans.pure ⟨hfour v, hn⟩
  · exact hraw vbLengthErr hmem
  · refine Spans.bind hs ((spans_decOid hs (by decide)).mapError vbLengthErr fun _ _ _ => hoid)
      fun oid n _ _ hn => ?_
    refine Spans.pure ⟨?_, hn.1⟩
    rw [length_ofSubIds]
    have hfits : oid.length ≤ 32 := hn.2.2
    show 4 * oid.length ≤ 128
    omega
  · exact hraw vbParseExec htold
  · exact Spans.throw fun h => by cases h
  · refine Spans.bind hs ((spans_decUnsigned 64 9 hs).mapError vbParseExec htold) fun v n _ _ hn => ?_
    exact Spans.pure ⟨height v, hn⟩
  · exact Spans.throw fun h => by cases h

/-- A varbind up to its value: what is left of its sequence is the value. -/
theorem spans_decHead (hs : s.Within) : Spans decHead s
    (fun head n => 0 < n ∧ head.1.length ≤ snmpMaxObjIdLen ∧ head.2.valueLen ≤ s.length - n ∧
      ∃ tlv, (exec snmpAsn1DecTlv s).1 = .ok tlv ∧ tlv.type = asn1Sequence ∧
        n + head.2.valueLen = tlv.length)
    (· ≠ .outside) := by
  rw [decHead]
  refine Spans.bind hs ((spans_decTlv hs).answers.mapError vbParseExec fun _ => parseExec_outside)
    fun tlv n hn _ hsequence => ?_
  obtain ⟨hdone, hlen, hpos⟩ := hsequence
  have hexec := congrArg Prod.fst hdone
  refine Spans.left ?_
  by_cases htype : tlv.type = asn1Sequence ∧ tlv.valueLen ≤ (s.skip n).length
  · rw [if_neg (not_not_intro htype)]
    have hname : Spans (decName tlv.valueLen) (s.skip n) (fun v m => v.1.length ≤ snmpMaxObjIdLen ∧
        v.2 + m = tlv.valueLen) (· ≠ .outside) := by
      rw [decName]
      refine Spans.bind hn ((spans_decTlv hn).mapError vbParseExec fun _ => parseExec_outside)
        fun name m hm _ hname => ?_
      refine Spans.left ?_
      by_cases hoid : name.type = asn1ObjectId ∧ name.length < tlv.valueLen ∧
          name.valueLen < ((s.skip n).skip m).length
      · rw [if_neg (not_not_intro hoid)]
        refine Spans.bind hm ((spans_decOid hm (by decide)).mapError vbParseExec
          fun e he => parseExec_outside (he (le_refl _))) fun oid k hk _ hids => ?_
        refine Spans.pure ⟨hids.2.1, ?_⟩
        have hlt := hoid.2.1
        rw [Tlv.length] at hlt
        simp only [Tlv.length]
        omega
      · rw [if_pos hoid]
        exact Spans.throw (by decide)
    refine Spans.bind hn hname fun v m hm _ hv => ?_
    dsimp only
    refine Spans.bind hm ((spans_decTlv hm).mapError vbParseExec fun _ => parseExec_outside)
      fun value k hk _ hvalue => ?_
    refine Spans.left ?_
    by_cases hfits : value.length = v.2 ∧ value.valueLen ≤ (((s.skip n).skip m).skip k).length
    · rw [if_neg (not_not_intro hfits)]
      have hroom : value.valueLen ≤ s.length - n - m - k := hfits.2
      have hexact := hfits.1
      rw [Tlv.length] at hexact
      refine Spans.pure ⟨by omega, hv.1, by dsimp only; omega, tlv, hexec, htype.1, ?_⟩
      rw [Tlv.length]
      dsimp only
      omega
    · rw [if_pos hfits]
      exact Spans.throw (by decide)
  · rw [if_pos htype]
    exact Spans.throw (by decide)

theorem exec_seek {n : ℕ} (h : n ≤ s.length) :
    exec (Code.ignore (snmpPbufStreamSeek n) : Code VbErr UInt8 Unit) s = (.ok (), s.skip n) := by
  show (Except.ok (), (if n > s.length then ((.error .arg : Except Err Unit), s)
    else (.ok (), s.skip n)).2) = _
  rw [if_neg (by omega)]

/-- **A varbind that is accepted**, and is left behind `n` octets: the
arrays have room, its name and its type are those that `decHead` reads,
and `n` is the end of its sequence, but for a NULL that has an array to be
stored in: that is left behind its head, in front of the octets it has. -/
structure Accepted (value : Bool) (s : Stream) (vb : SnmpVarbind) (n : ℕ) : Prop where
  pos : 0 < n
  oid : vb.oid.length ≤ snmpMaxObjIdLen
  short : vb.value.length ≤ snmpMaxValueSize
  sequence : ∃ tlv head k, (exec snmpAsn1DecTlv s).1 = .ok tlv ∧ tlv.type = asn1Sequence ∧
    exec decHead s = (.ok head, s.skip k) ∧ vb.oid = head.1 ∧ vb.type = head.2.type ∧
    k + head.2.valueLen = tlv.length ∧
    n = if value = true ∧ vb.type = asn1Null then k else tlv.length

/-- What is left of a varbind behind its head. -/
theorem spans_decRest (value : Bool) (oid : List UInt32) (tlv : Tlv) (hs : s.Within)
    (hroom : tlv.valueLen ≤ s.length) : Spans (decRest value oid tlv) s
      (fun vb n => vb.oid = oid ∧ vb.type = tlv.type ∧ vb.value.length ≤ snmpMaxValueSize ∧
        n = if value = true ∧ tlv.type = asn1Null then 0 else tlv.valueLen)
      (fun e => e = .outside → value = true) := by
  rw [decRest]
  cases value with
  | true =>
    rw [if_pos rfl]
    refine Spans.bind hs ((spans_decValue tlv.type tlv.valueLen hs).mono (fun _ _ _ => id)
      fun _ _ _ => rfl) fun bytes m _ _ hbytes => ?_
    refine Spans.pure ⟨rfl, rfl, hbytes.1, ?_⟩
    rw [Nat.add_zero, hbytes.2]
    simp only [true_and]
  | false =>
    rw [if_neg Bool.false_ne_true]
    have hseek := exec_seek hroom
    refine ⟨tlv.valueLen, hroom, ?_, ?_, ?_⟩
    · rw [exec_bind_ok hseek]
      rfl
    · intro vb hvb
      rw [exec_bind_ok hseek] at hvb
      obtain rfl := Except.ok.inj hvb
      exact ⟨rfl, rfl, Nat.zero_le _, (if_neg fun h => Bool.false_ne_true h.1).symm⟩
    · intro e he
      rw [exec_bind_ok hseek] at he
      cases he

/-- **Whatever the bytes are**, a varbind is read in the window: it is
accepted and left where its octets end, or refused inside; and only a value
can be stored outside of its array. -/
theorem spans_decVarbind (value : Bool) (hs : s.Within) :
    Spans (decVarbind value) s (Accepted value s) (fun e => e = .outside → value = true) := by
  rw [decVarbind]
  refine Spans.bind hs ((spans_decHead hs).answers.mono (fun _ _ _ => id) fun e he h => absurd h he)
    fun head n hn hle hhead => ?_
  obtain ⟨hexec, hpos, hoid, hroom, tlv, hsequence, htype, hlen⟩ := hhead
  dsimp only
  refine (spans_decRest value head.1 head.2 hn hroom).mono (fun vb m _ hvb => ?_) fun _ => id
  obtain ⟨hname, hvalue, hshort, hm⟩ := hvb
  refine ⟨by omega, hname ▸ hoid, hshort, tlv, head, n, hsequence, htype, hexec, hname, hvalue, hlen, ?_⟩
  rw [hm, hvalue]
  split_ifs
  · rfl
  · exact hlen

/-- Calls of `snmp_vb_enumerator_get_next` that are all answered by a
varbind, each from where the last has left the enumerator. -/
inductive Answered (value : Bool) : Enumerator → List SnmpVarbind → Enumerator → Prop
  | nil (e : Enumerator) : Answered value e [] e
  | cons {e e' e'' : Enumerator} {vb : SnmpVarbind} {vbs : List SnmpVarbind}
      (h : snmpVbEnumeratorGetNext value e = (.ok vb, e')) (hrest : Answered value e' vbs e'') :
      Answered value e (vb :: vbs) e''

/-- A call reads in the window, however it ends. -/
theorem getNext_window (value : Bool) {e : Enumerator} (hs : e.pbufStream.Within) :
    ∃ n ≤ e.pbufStream.length,
      (snmpVbEnumeratorGetNext value e).2.pbufStream = e.pbufStream.skip n ∧
      ∀ vb, (snmpVbEnumeratorGetNext value e).1 = .ok vb →
        (snmpVbEnumeratorGetNext value e).2.varbindCount = e.varbindCount + 1 ∧
        Accepted value e.pbufStream vb n := by
  rw [snmpVbEnumeratorGetNext]
  by_cases hempty : e.pbufStream.length = 0
  · rw [if_pos hempty]
    exact ⟨0, Nat.zero_le _, rfl, fun _ h => by cases h⟩
  · rw [if_neg hempty]
    obtain ⟨n, hn, hend, hok, -⟩ := spans_decVarbind value hs
    exact ⟨n, hn, hend, fun vb hvb => ⟨rfl, hok vb hvb⟩⟩

/-- Varbinds that stand in a stream one behind the other, up to where it is
left: each is accepted where the one before it was left. -/
inductive Consecutive (value : Bool) : Stream → List SnmpVarbind → Stream → Prop
  | nil (s : Stream) : Consecutive value s [] s
  | cons {s t : Stream} {vb : SnmpVarbind} {vbs : List SnmpVarbind} {n : ℕ}
      (haccepted : Accepted value s vb n) (hn : n ≤ s.length)
      (hrest : Consecutive value (s.skip n) vbs t) : Consecutive value s (vb :: vbs) t

/-- Varbinds that stand one behind the other take an octet each at least, so
there are no more of them than octets. -/
theorem Consecutive.skip {value : Bool} {s t : Stream} {vbs : List SnmpVarbind}
    (h : Consecutive value s vbs t) : ∃ n, vbs.length ≤ n ∧ n ≤ s.length ∧ t = s.skip n := by
  induction h with
  | nil s => exact ⟨0, Nat.le_refl 0, Nat.zero_le _, rfl⟩
  | @cons s t vb vbs n haccepted hn hrest ih =>
    obtain ⟨m, hm, hle, rfl⟩ := ih
    have hpos := haccepted.pos
    have hroom : m ≤ s.length - n := hle
    refine ⟨n + m, ?_, by omega, Cursor.skip_skip⟩
    rw [List.length_cons]
    omega

/-- **Whatever the bytes are**, the varbinds that a run of the enumerator
accepts stand one behind the other from where it begins to where it gets
to, inside of its window, and none is longer than the arrays. The next
call stays in the window too, however it ends. -/
theorem answered_spec (value : Bool) {e e' : Enumerator} {vbs : List SnmpVarbind}
    (hs : e.pbufStream.Within) (h : Answered value e vbs e') :
    e'.varbindCount = e.varbindCount + vbs.length ∧
      Consecutive value e.pbufStream vbs e'.pbufStream ∧
      (∃ n, vbs.length ≤ n ∧ n ≤ e.pbufStream.length ∧ e'.pbufStream = e.pbufStream.skip n) ∧
      ∃ n ≤ e.pbufStream.length,
        (snmpVbEnumeratorGetNext value e').2.pbufStream = e.pbufStream.skip n := by
  induction h with
  | nil e =>
    obtain ⟨n, hn, hend, -⟩ := getNext_window value hs
    exact ⟨rfl, .nil _, ⟨0, Nat.le_refl 0, Nat.zero_le _, rfl⟩, n, hn, hend⟩
  | @cons e e₁ e₂ vb vbs h _ ih =>
    obtain ⟨n, hn, hend, hok⟩ := getNext_window value hs
    rw [h] at hend hok
    obtain ⟨hone, haccepted⟩ := hok vb rfl
    have hend : e₁.pbufStream = e.pbufStream.skip n := hend
    have hone : e₁.varbindCount = e.varbindCount + 1 := hone
    rw [hend] at ih
    obtain ⟨hcount, hrest, -, k, hk, hnext⟩ := ih (hs.skip hn)
    have hall := Consecutive.cons haccepted hn hrest
    have hroom : k ≤ e.pbufStream.length - n := hk
    refine ⟨?_, hall, hall.skip, n + k, by omega, ?_⟩
    · rw [hcount, hone, List.length_cons]
      omega
    · rw [hnext, Cursor.skip_skip]

/-- An INTEGER and a NULL that has an octet: the next varbind is looked for
in it. -/
theorem answered_spec_null :
    let s : Stream := ⟨[0x30, 6, 6, 1, 43, 2, 1, 5, 0x30, 6, 6, 1, 43, 5, 1, 9], 0, 16⟩
    let e' : Enumerator := ⟨s.skip 15, 2⟩
    e'.varbindCount = 0 + 2 ∧
      Consecutive true s [⟨[1, 3], asn1Integer, false, 4, [5, 0, 0, 0]⟩,
        ⟨[1, 3], asn1Null, false, 0, []⟩] (s.skip 15) ∧
      (∃ n, 2 ≤ n ∧ n ≤ 16 ∧ e'.pbufStream = s.skip n) ∧
      ∃ n ≤ 16, (snmpVbEnumeratorGetNext true e').2.pbufStream = s.skip n :=
  answered_spec true (show 0 + 16 ≤ _ by decide)
    (show Answered true (snmpVbEnumeratorInit
      [0x30, 6, 6, 1, 43, 2, 1, 5, 0x30, 6, 6, 1, 43, 5, 1, 9] 0 16) _ _ from
      .cons rfl (.cons rfl (.nil _)))

/-! ## What is stored outside of the array -/

/-- No octet of the sub-identifier follows: its top bit is clear. -/
def isLast (data : UInt8) : Bool := data &&& 0x80 = 0

/-- The octets up to the end of a sub-identifier, or all where it has
none. -/
theorem decMore_spec : ∀ (octets : List UInt8) (data : UInt8) (subId : UInt32) {s : Stream}
    {rest : List UInt8}, s.Within → s.window = octets ++ rest →
    (∃ id front back, octets = front ++ back ∧
      exec (decMore octets.length data subId) s = (.ok (id, back.length), s.skip front.length) ∧
      (data :: front).countP isLast = 1) ∨
    (exec (decMore octets.length data subId) s).1 = .error .val ∧
      (data :: octets).countP isLast = 0 := by
  intro octets
  induction octets with
  | nil =>
    intro data subId s rest hs hwindow
    by_cases hlast : data &&& 0x80 = 0
    · refine Or.inl ⟨subId, [], [], rfl, ?_, ?_⟩
      · rw [decMore_end hlast]
        rfl
      · rw [List.countP_cons, if_pos (show isLast data = true from decide_eq_true hlast)]
        rfl
    · refine Or.inr ⟨?_, ?_⟩
      · rw [List.length_nil, decMore.eq_def]
        dsimp only
        rw [if_neg hlast]
        rfl
      · rw [List.countP_cons, if_neg fun h : isLast data = true => hlast (of_decide_eq_true h)]
        rfl
  | cons octet octets ih =>
    intro data subId s rest hs hwindow
    by_cases hlast : data &&& 0x80 = 0
    · refine Or.inl ⟨subId, [], octet :: octets, rfl, ?_, ?_⟩
      · rw [decMore_end hlast]
        rfl
      · rw [List.countP_cons, if_pos (show isLast data = true from decide_eq_true hlast)]
        rfl
    · have hnot : ¬ isLast data = true := fun h => hlast (of_decide_eq_true h)
      have hread : exec snmpPbufStreamRead s = (.ok octet, s.skip 1) :=
        reads_read octet s (octets ++ rest) hs hwindow
      have hbehind : (s.skip 1).window = octets ++ rest :=
        Cursor.window_skip_cons hwindow
      have hlen : 1 ≤ s.length := by
        rw [← Cursor.length_window hs, hwindow]
        simp
      rw [List.length_cons, decMore_more hlast, exec_bind_ok hread, List.countP_cons, if_neg hnot]
      rcases ih octet (subId <<< 7 + (octet &&& 0x7F).toUInt32) (hs.skip hlen) hbehind with
        ⟨id, front, back, hsplit, hexec, hone⟩ | ⟨herr, hnone⟩
      · refine Or.inl ⟨id, octet :: front, back, by rw [hsplit]; rfl, ?_, ?_⟩
        · rw [hexec, Cursor.skip_skip, List.length_cons, Nat.add_comm]
        · rw [List.countP_cons, if_neg hnot]
          exact hone
      · exact Or.inr ⟨herr, hnone⟩

/-- **The loop leaves its array** when there are more sub-identifiers than
it has room for. -/
theorem decSubIds_outside {room most : ℕ} (hroom : room < most) : ∀ (rounds : ℕ)
    (oid : List UInt32) {octets rest : List UInt8} {s : Stream}, s.Within →
    s.window = octets ++ rest → octets.length ≤ rounds → oid.length ≤ room →
    ((exec (decSubIds room most rounds octets.length oid) s).1 = .error .outside ↔
      room < oid.length + octets.countP isLast) := by
  intro rounds
  induction rounds with
  | zero =>
    intro oid octets rest s hs hwindow hlen hfits
    obtain rfl := List.eq_nil_of_length_eq_zero (Nat.le_zero.1 hlen)
    refine iff_of_false (fun h => by cases h) ?_
    rw [List.countP_nil]
    omega
  | succ rounds ih =>
    intro oid octets rest s hs hwindow hlen hfits
    cases octets with
    | nil =>
      refine iff_of_false (fun h => by cases h) ?_
      rw [List.countP_nil]
      omega
    | cons data octets =>
      have hread : exec snmpPbufStreamRead s = (.ok data, s.skip 1) :=
        reads_read data s (octets ++ rest) hs hwindow
      have hone : 1 ≤ s.length := by
        rw [← Cursor.length_window hs, hwindow]
        simp
      have hin := hs.skip hone
      have hbehind : (s.skip 1).window = octets ++ rest :=
        Cursor.window_skip_cons hwindow
      rw [List.length_cons] at hlen
      rw [decSubIds, if_pos ⟨by simp, by omega⟩, exec_bind_ok hread, List.length_cons,
        Nat.add_sub_cancel]
      rcases decMore_spec octets data (data &&& 0x7F).toUInt32 hin hbehind with
        ⟨id, front, back, hsplit, hexec, hcount⟩ | ⟨herr, hnone⟩
      · rw [exec_bind_ok hexec]
        dsimp only
        have htotal : (data :: octets).countP isLast = 1 + back.countP isLast := by
          rw [hsplit, ← List.cons_append, List.countP_append, hcount]
        rw [htotal]
        by_cases hfull : oid.length ≥ room
        · rw [if_pos hfull]
          exact iff_of_true rfl (by omega)
        · rw [if_neg hfull]
          rw [hsplit, List.append_assoc] at hbehind
          have hfront : front.length ≤ (s.skip 1).length := by
            rw [← Cursor.length_window hin, hbehind, List.length_append]
            omega
          have hback : back.length ≤ rounds := by
            rw [hsplit, List.length_append] at hlen
            omega
          have hrest := ih (oid ++ [id]) (hin.skip hfront) (Cursor.window_skip_append hbehind) hback
            (by rw [List.length_append, List.length_singleton]; omega)
          rw [List.length_append, List.length_singleton, Nat.add_assoc] at hrest
          exact hrest
      · rw [hnone]
        refine iff_of_false ?_ (by omega)
        rw [exec_bind]
        rcases hexec : exec (decMore octets.length data (data &&& 0x7F).toUInt32) (s.skip 1) with ⟨r, t⟩
        rw [hexec] at herr
        have herr : r = .error .val := herr
        rw [herr]
        exact fun h => by cases h

theorem decOid_outside (room most : ℕ) (htwo : 2 ≤ room) (hroom : room < most)
    {octets rest : List UInt8} (hs : s.Within) (hwindow : s.window = octets ++ rest) :
    (exec (snmpAsn1DecOid room octets.length most) s).1 = .error .outside ↔
      room < 2 + octets.tail.countP isLast := by
  cases octets with
  | nil =>
    refine iff_of_false (fun h => by cases h) ?_
    rw [List.tail_nil, List.countP_nil]
    omega
  | cons data octets =>
    have hread : exec snmpPbufStreamRead s = (.ok data, s.skip 1) :=
      reads_read data s (octets ++ rest) hs hwindow
    have hbehind : (s.skip 1).window = octets ++ rest :=
      Cursor.window_skip_cons hwindow
    have hone : 1 ≤ s.length := by
      rw [← Cursor.length_window hs, hwindow]
      simp
    rw [snmpAsn1DecOid, if_pos (by simp), if_neg (by omega), exec_bind_ok hread]
    dsimp only
    rw [if_neg (by omega), List.length_cons, Nat.add_sub_cancel, List.tail_cons]
    have hfirst : (if data = 0x2B then ([1, 3] : List UInt32)
        else if data < 40 then [0, data.toUInt32]
        else if data < 80 then [1, (data - 40).toUInt32]
        else [2, (data - 80).toUInt32]).length = 2 := by
      split_ifs <;> rfl
    have houtside := decSubIds_outside hroom (octets.length + 1) _ (hs.skip hone) hbehind
      (Nat.le_succ _) (hfirst.le.trans htwo)
    rwa [hfirst] at houtside

/-- Of the values, an object identifier is the one that can be too
long. -/
theorem decValue_outside (type : UInt8) {octets rest : List UInt8} (hs : s.Within)
    (hwindow : s.window = octets ++ rest) :
    (exec (decValue type octets.length) s).1 = .error .outside ↔
      type = asn1ObjectId ∧ 30 < octets.tail.countP isLast := by
  have hoid : (exec (decValue asn1ObjectId octets.length) s).1 = .error .outside ↔
      (exec (snmpAsn1DecOid 32 octets.length 50) s).1 = .error .outside := by
    show (exec (Code.mapError vbLengthErr (snmpAsn1DecOid 32 octets.length 50) >>= fun oid =>
      pure (ofSubIds oid)) s).1 = _ ↔ _
    rw [exec_map_error, exec_mapError_error]
    constructor
    · rintro ⟨e, he, houtside⟩
      cases e with
      | outside => exact he
      | _ => cases houtside
    · exact fun he => ⟨_, he, rfl⟩
  have hcount := decOid_outside 32 50 (by decide) (by decide) hs hwindow
  constructor
  · intro houtside
    obtain ⟨-, -, -, -, herr⟩ := spans_decValue type octets.length hs
    have htype := herr _ houtside rfl
    rw [htype, hoid, hcount] at houtside
    exact ⟨htype, by omega⟩
  · rintro ⟨rfl, hmore⟩
    rw [hoid, hcount]
    omega

/-- The last `len` octets that a stream has passed, in front of where it
stands. -/
def passed (t : Stream) (len : ℕ) : List UInt8 := (t.cells.drop (t.offset - len)).take len

/-- **Exactly then a value is stored outside of its array**: it is an
object identifier, and its octets behind the first end more than 30
sub-identifiers. An array of the caller's would have passed over it. -/
theorem outside_iff (hs : s.Within) : (exec (decVarbind true) s).1 = .error .outside ↔
    ∃ vb t, exec (decVarbind false) s = (.ok vb, t) ∧ vb.type = asn1ObjectId ∧
      30 < (passed t vb.valueLen).tail.countP isLast := by
  obtain ⟨n, hn, hend, hok, herr⟩ := spans_decHead hs
  rw [decVarbind, decVarbind, exec_bind, exec_bind]
  rcases hexec : exec decHead s with ⟨e | ⟨oid, tlv⟩, u⟩
  · rw [hexec] at herr
    refine iff_of_false ?_ ?_
    · intro houtside
      exact herr e rfl (Except.error.inj houtside)
    · rintro ⟨vb, t, hvb, -⟩
      cases hvb
  · rw [hexec] at hend hok
    obtain rfl : u = s.skip n := hend
    obtain ⟨-, -, hroom, -⟩ := hok _ rfl
    have hroom : tlv.valueLen ≤ (s.skip n).length := hroom
    have hin := hs.skip hn
    have hlen : ((s.skip n).window.take tlv.valueLen).length = tlv.valueLen := by
      rw [List.length_take, Cursor.length_window hin]
      omega
    have hvalue := decValue_outside tlv.type hin
      (List.take_append_drop tlv.valueLen (s.skip n).window).symm
    rw [hlen] at hvalue
    have hpassed : passed ((s.skip n).skip tlv.valueLen) tlv.valueLen =
        (s.skip n).window.take tlv.valueLen := by
      show ((s.skip n).cells.drop ((s.skip n).offset + tlv.valueLen - tlv.valueLen)).take
        tlv.valueLen = _
      rw [Nat.add_sub_cancel, Cursor.window, List.take_take, Nat.min_eq_left hroom]
    have htrue : (exec (decRest true oid tlv) (s.skip n)).1 = .error .outside ↔
        (exec (decValue tlv.type tlv.valueLen) (s.skip n)).1 = .error .outside := by
      show (exec (decValue tlv.type tlv.valueLen >>= fun bytes =>
        pure (⟨oid, tlv.type, false, bytes.length, bytes⟩ : SnmpVarbind)) (s.skip n)).1 = _ ↔ _
      exact exec_map_error _
    have hfalse : exec (decRest false oid tlv) (s.skip n) =
        (.ok ⟨oid, tlv.type, false, tlv.valueLen, []⟩, (s.skip n).skip tlv.valueLen) := by
      rw [decRest, if_neg Bool.false_ne_true, exec_bind_ok (exec_seek hroom)]
      rfl
    dsimp only
    rw [htrue, hvalue, hfalse, ← hpassed]
    constructor
    · rintro ⟨htype, hmore⟩
      exact ⟨_, _, rfl, htype, hmore⟩
    · rintro ⟨vb, t, hvb, htype, hmore⟩
      cases hvb
      exact ⟨htype, hmore⟩

/-- **33 sub-identifiers** in the value of a varbind of 39 bytes, the last
of which is stored behind the array. -/
theorem outside_iff_long : (exec (decVarbind true)
    ⟨[0x30, 37, 6, 1, 43, 6, 32, 43] ++ List.replicate 31 0, 0, 39⟩).1 = .error .outside :=
  (outside_iff (show 0 + 39 ≤ _ by decide)).2 ⟨_, _, rfl, rfl, by decide⟩

end Snmp

end SlipBoard
