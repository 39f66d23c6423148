import SlipBoard.Snmp.Model.Asn1
import Mathlib.Data.Nat.Bitwise
import Mathlib.Tactic.IntervalCases
/-!
# SNMP — what is coded is decoded

The encoders write as many octets as their counts say, and the decoders
read them as what was coded: the head of a value, numbers with and
without a sign, object identifiers.
-/

namespace SlipBoard

namespace Snmp

open Bytes Code

variable {n k w v len : ℕ} {data : UInt8} {buf : List UInt8}

/-! ## Octets -/

theorem writes_writebuf (hne : buf ≠ []) : Writes (snmpPbufStreamWritebuf buf) buf () := by
  intro s hs hfits
  have hin : s.offset + s.length ≤ s.cells.length := hs
  have hpos := List.length_pos_iff.2 hne
  show (if s.length < buf.length then _ else _) = _
  rw [if_neg (by omega), if_pos (by omega)]

theorem writes_write (data : UInt8) : Writes (snmpPbufStreamWrite data) [data] () :=
  writes_writebuf (List.cons_ne_nil _ _)

theorem reads_read (data : UInt8) : Reads snmpPbufStreamRead [data] data := by
  intro s rest hs hwindow
  have hlength : s.length = rest.length + 1 := by
    rw [← Cursor.length_window hs, hwindow]
    rfl
  have hcell : s.cells[s.offset]? = some data := by
    have hhead : s.window[0]? = some data := by
      rw [hwindow]
      rfl
    rwa [Cursor.window, List.getElem?_take_of_lt (by omega), List.getElem?_drop, Nat.add_zero] at hhead
  show (if s.length = 0 then _ else _) = _
  rw [if_neg (by omega), hcell]
  rfl

/-! ## Numbers -/

/-- The octets of a number, with the last of them. -/
theorem writes_encOctets (value n : ℕ) :
    Writes (encOctets value (n + 1) >>= fun _ => snmpPbufStreamWrite (UInt8.ofNat value))
      (bigEndian (n + 1) value) () := by
  induction n with
  | zero => exact (Writes.pure ()).bind (writes_write _)
  | succ n ih =>
    rw [bigEndian_cons, encOctets, bind_assoc]
    exact (writes_write _).bind ih

/-- **The octets that are shifted in** make the number they stand for, and
drop what does not fit the word. -/
theorem reads_decOctets (hw : 8 ≤ w) (bs : List UInt8) (hv : v < 2 ^ w) :
    Reads (decOctets w bs.length v) bs ((v * 256 ^ bs.length + value bs) % 2 ^ w) := by
  induction bs generalizing v with
  | nil =>
    have hend : (v * 256 ^ ([] : List UInt8).length + value []) % 2 ^ w = v := by
      simpa [value] using Nat.mod_eq_of_lt hv
    rw [hend]
    exact Reads.pure v
  | cons b bs ih =>
    have hstep : (v <<< 8) % 2 ^ w ||| b.toNat = (256 * v + b.toNat) % 2 ^ w :=
      shiftLeft_or_mod hw v b
    have hlt : (256 * v + b.toNat) % 2 ^ w < 2 ^ w := Nat.mod_lt _ (Nat.two_pow_pos w)
    have hvalue : ((256 * v + b.toNat) % 2 ^ w * 256 ^ bs.length + value bs) % 2 ^ w =
        (v * 256 ^ (b :: bs).length + value (b :: bs)) % 2 ^ w := by
      rw [value_cons, List.length_cons, Nat.add_mod, Nat.mod_mul_mod, ← Nat.add_mod, pow_succ]
      ring_nf
    rw [← hvalue]
    refine (reads_read b).bind ?_
    rw [hstep]
    exact ih hlt

/-- The octets a number is given, of at most `most`, the last of which is
there for a sign alone. -/
structure Room (most n v : ℕ) : Prop where
  pos : 0 < n
  le : n ≤ most
  lt : v < 256 ^ (most - 1)
  sign : n < most → 2 * v < 256 ^ n

theorem room_u32 (h : v < 2 ^ 32) : Room 5 (snmpAsn1EncU32tCnt v) v := by
  have hpow : (256 : ℕ) ^ 4 = 2 ^ 32 := by norm_num
  unfold snmpAsn1EncU32tCnt
  split_ifs with h1 h2 h3 h4 <;> refine ⟨by omega, by omega, hpow ▸ h, fun hlt => ?_⟩ <;> omega

theorem room_u64 (h : v < 2 ^ 64) : Room 9 (snmpAsn1EncU64tCnt v) v := by
  have hpow : (256 : ℕ) ^ 8 = 2 ^ 64 := by norm_num
  have hshift : v >>> 32 = v / 2 ^ 32 := Nat.shiftRight_eq_div_pow v 32
  unfold snmpAsn1EncU64tCnt snmpAsn1EncU32tCnt
  rw [hshift]
  split_ifs <;> refine ⟨by omega, by omega, hpow ▸ h, fun hlt => ?_⟩ <;> omega

theorem writes_encUnsigned {most : ℕ} (hmost : 2 ≤ most) (h : Room most n v) :
    Writes (encUnsigned most n v) (bigEndian n v) () := by
  have hpos := h.pos
  have hle := h.le
  rw [encUnsigned, if_neg (by omega)]
  by_cases hsign : n = most
  · obtain ⟨m, rfl⟩ : ∃ m, most = m + 2 := ⟨most - 2, by omega⟩
    have hzero : v >>> (8 * (m + 1)) = 0 := by
      have hlt : v < 256 ^ (m + 1) := h.lt
      rw [Nat.shiftRight_eq_div_pow, pow_mul]
      exact Nat.div_eq_of_lt hlt
    rw [if_pos hsign, if_pos hsign, hsign, bigEndian_cons, hzero]
    exact (writes_write 0).bind (writes_encOctets v m)
  · obtain ⟨m, rfl⟩ : ∃ m, n = m + 1 := ⟨n - 1, by omega⟩
    rw [if_neg hsign, if_neg hsign]
    exact writes_encOctets v m

/-- A first octet has its highest bit where the number has. -/
theorem and_0x80 (data : UInt8) : data &&& 0x80 = 0 ↔ data.toNat < 128 := by
  have hbit : (data &&& 0x80).toNat = data.toNat &&& 2 ^ 7 := rfl
  rw [← UInt8.toNat_inj, hbit, Nat.and_two_pow]
  have hlt := data.toNat_lt
  have htest : data.toNat.testBit 7 = decide (128 ≤ data.toNat) := by
    rw [Nat.testBit_eq_decide_div_mod_eq, decide_eq_decide]
    omega
  rw [htest]
  by_cases hhigh : 128 ≤ data.toNat
  · simp [hhigh]
  · simp [hhigh]
    omega

theorem ofNat_shiftRight_toNat (hv : v < 256 ^ (n + 1)) :
    (UInt8.ofNat (v >>> (8 * n))).toNat = v / 256 ^ n := by
  have hlt : v / 256 ^ n < 256 := by
    rw [Nat.div_lt_iff_lt_mul (by positivity), ← pow_succ']
    exact hv
  rw [UInt8.toNat_ofNat', Nat.shiftRight_eq_div_pow, pow_mul]
  exact Nat.mod_eq_of_lt hlt

/-- The head octet and the others make the number. -/
theorem value_octets (hv : v < 256 ^ (n + 1)) :
    (UInt8.ofNat (v >>> (8 * n))).toNat * 256 ^ (bigEndian n v).length + value (bigEndian n v) = v := by
  rw [ofNat_shiftRight_toNat hv, length_bigEndian, value_bigEndian_mod]
  exact Nat.div_add_mod' v _

/-- **A number without a sign is read as what was coded**, also where a zero
stands in front of it to keep the sign bit clear. -/
theorem reads_decUnsigned {most : ℕ} (hmost : 2 ≤ most) (h : Room most n v) :
    Reads (decUnsigned (8 * (most - 1)) most n) (bigEndian n v) v := by
  have hpos := h.pos
  obtain ⟨m, rfl⟩ : ∃ m, n = m + 1 := ⟨n - 1, by omega⟩
  have hword : v < 2 ^ (8 * (most - 1)) := by
    rw [pow_mul]
    exact h.lt
  have hfits : v < 256 ^ (m + 1) := by
    by_cases hlt : m + 1 < most
    · have := h.sign hlt
      omega
    · exact h.lt.trans_le (Nat.pow_le_pow_right (by decide) (by omega))
  have hbyte : (UInt8.ofNat (v >>> (8 * m))).toNat < 2 ^ (8 * (most - 1)) := by
    refine (UInt8.toNat_lt _).trans_le ?_
    exact Nat.pow_le_pow_right (by decide) (by omega)
  have hread := reads_decOctets (by omega) (bigEndian m v) hbyte
  rw [value_octets hfits, Nat.mod_eq_of_lt hword, length_bigEndian] at hread
  have hsign : m + 1 = most ∧ UInt8.ofNat (v >>> (8 * m)) = 0 ∨
      m + 1 < most ∧ UInt8.ofNat (v >>> (8 * m)) &&& 0x80 = 0 := by
    rcases h.le.lt_or_eq with hlt | heq
    · refine Or.inr ⟨hlt, ?_⟩
      rw [and_0x80, ofNat_shiftRight_toNat hfits, Nat.div_lt_iff_lt_mul (by positivity)]
      have := h.sign hlt
      rw [pow_succ] at this
      omega
    · refine Or.inl ⟨heq, UInt8.toNat_inj.1 ?_⟩
      have hlt : v < 256 ^ (most - 1) := h.lt
      rw [ofNat_shiftRight_toNat hfits]
      exact Nat.div_eq_of_lt (by rwa [← heq] at hlt)
  rw [decUnsigned, if_pos ⟨hpos, h.le⟩, bigEndian_cons]
  refine (reads_read _).bind ?_
  rw [if_pos hsign]
  exact hread

theorem reads_u32 (h : v < 2 ^ 32) :
    Writes (snmpAsn1EncU32t (snmpAsn1EncU32tCnt v) v) (bigEndian (snmpAsn1EncU32tCnt v) v) () ∧
      Reads (snmpAsn1DecU32t (snmpAsn1EncU32tCnt v)) (bigEndian (snmpAsn1EncU32tCnt v) v) v :=
  ⟨writes_encUnsigned (by decide) (room_u32 h), reads_decUnsigned (by decide) (room_u32 h)⟩

theorem reads_u64 (h : v < 2 ^ 64) :
    Writes (snmpAsn1EncU64t (snmpAsn1EncU64tCnt v) v) (bigEndian (snmpAsn1EncU64tCnt v) v) () ∧
      Reads (snmpAsn1DecU64t (snmpAsn1EncU64tCnt v)) (bigEndian (snmpAsn1EncU64tCnt v) v) v :=
  ⟨writes_encUnsigned (by decide) (room_u64 h), reads_decUnsigned (by decide) (room_u64 h)⟩

/-- The octets a bit pattern is given: enough for the number it is with
its sign. -/
theorem encS32tCnt_spec (h : v < 2 ^ 32) : 0 < snmpAsn1EncS32tCnt v ∧ snmpAsn1EncS32tCnt v < 5 ∧
    (2 * v < 256 ^ snmpAsn1EncS32tCnt v ∧ v < 2 ^ 31 ∨
      2 ^ 31 ≤ v ∧ 2 * (2 ^ 32 - v) ≤ 256 ^ snmpAsn1EncS32tCnt v) := by
  unfold snmpAsn1EncS32tCnt
  dsimp only
  split_ifs <;> omega

/-- **A number with its sign is read as what was coded**: the octets that
are left out are those that the sign gives back. -/
theorem reads_s32 (h : v < 2 ^ 32) :
    Writes (snmpAsn1EncS32t (snmpAsn1EncS32tCnt v) v) (bigEndian (snmpAsn1EncS32tCnt v) v) () ∧
      Reads (snmpAsn1DecS32t (snmpAsn1EncS32tCnt v)) (bigEndian (snmpAsn1EncS32tCnt v) v) v := by
  obtain ⟨hpos, hfive, hsign⟩ := encS32tCnt_spec h
  generalize hn : snmpAsn1EncS32tCnt v = n at hpos hfive hsign
  obtain ⟨m, rfl⟩ : ∃ m, n = m + 1 := ⟨n - 1, by omega⟩
  refine ⟨writes_encOctets v m, ?_⟩
  have hbyte : (UInt8.ofNat (v >>> (8 * m))).toNat = v / 256 ^ m % 256 := by
    rw [UInt8.toNat_ofNat', Nat.shiftRight_eq_div_pow, pow_mul]
    rfl
  rw [snmpAsn1DecS32t, if_pos ⟨hpos, hfive⟩, bigEndian_cons]
  refine (reads_read _).bind ?_
  -- the sign fills the word in front of the octets
  have hread : ∀ sign : ℕ, Reads (decOctets 32 m ((sign <<< 8) % 2 ^ 32 |||
      (UInt8.ofNat (v >>> (8 * m))).toNat)) (bigEndian m v)
      (((256 * sign + v / 256 ^ m % 256) % 2 ^ 32 * 256 ^ m + v % 256 ^ m) % 2 ^ 32) := by
    intro sign
    have hoctets := reads_decOctets (w := 32) (by decide) (bigEndian m v)
      (Nat.mod_lt (256 * sign + v / 256 ^ m % 256) (by decide))
    rw [length_bigEndian, value_bigEndian_mod] at hoctets
    rw [shiftLeft_or_mod (by decide), hbyte]
    exact hoctets
  by_cases hhigh : v / 256 ^ m % 256 < 128
  · rw [if_neg (not_not_intro ((and_0x80 _).2 (by rwa [hbyte])))]
    have hvalue : ((256 * 0 + v / 256 ^ m % 256) % 2 ^ 32 * 256 ^ m + v % 256 ^ m) % 2 ^ 32 = v := by
      have hm : m ≤ 3 := by omega
      interval_cases m <;> omega
    have hzero := hread 0
    rwa [hvalue] at hzero
  · rw [if_pos fun hlow => hhigh (by rw [← hbyte]; exact (and_0x80 _).1 hlow)]
    have hvalue : ((256 * (2 ^ 32 - 1) + v / 256 ^ m % 256) % 2 ^ 32 * 256 ^ m + v % 256 ^ m) %
        2 ^ 32 = v := by
      have hm : m ≤ 3 := by omega
      interval_cases m <;> omega
    have hones := hread (2 ^ 32 - 1)
    rwa [hvalue] at hones

/-! ## The head of a value -/

/-- The octets of a head: the length in `lengthLen` of them. -/
def headOctets (type : UInt8) (lengthLen valueLen : ℕ) : List UInt8 :=
  type :: (if lengthLen > 1 then (0x80 ||| UInt8.ofNat (lengthLen - 1)) ::
    bigEndian (lengthLen - 1) valueLen else [UInt8.ofNat valueLen])

/-- The octets of a length: the loop writes all but the last, and the last
is written behind it. -/
theorem writes_encLength (hv : v < 2 ^ 16) (n : ℕ) :
    Writes (encLength v (n + 1) >>= fun _ => snmpPbufStreamWrite (UInt8.ofNat v))
      (bigEndian (n + 1) v) () := by
  induction n with
  | zero => exact (Writes.pure ()).bind (writes_write _)
  | succ n ih =>
    have hoctet : (if n = 0 then UInt8.ofNat (v >>> 8) else 0) = UInt8.ofNat (v >>> (8 * (n + 1))) := by
      cases n with
      | zero => rfl
      | succ n =>
        have hzero : v >>> (8 * (n + 1 + 1)) = 0 := by
          rw [Nat.shiftRight_eq_div_pow]
          refine Nat.div_eq_of_lt (hv.trans_le ?_)
          exact Nat.pow_le_pow_right (by decide) (by omega)
        rw [if_neg (Nat.succ_ne_zero n), hzero]
        rfl
    rw [bigEndian_cons, encLength, bind_assoc, hoctet]
    exact (writes_write _).bind ih

theorem headOctets_one (type : UInt8) (v : ℕ) :
    headOctets type 1 v = [type] ++ [UInt8.ofNat v] := rfl

theorem headOctets_succ (type : UInt8) (n v : ℕ) :
    headOctets type (n + 2) v =
      [type] ++ ([0x80 ||| UInt8.ofNat (n + 1)] ++ bigEndian (n + 1) v) := by
  rw [headOctets, if_pos (by omega)]
  rfl

/-- A length fits the octets it is given, in the short form of one octet or
in the long one. -/
theorem encLengthCnt_spec (hv : v < 2 ^ 16) : 0 < snmpAsn1EncLengthCnt v ∧
    (snmpAsn1EncLengthCnt v ≤ 1 → v < 128) ∧
    ∀ n, snmpAsn1EncLengthCnt v ≤ n + 2 → v < 256 ^ (n + 1) := by
  refine ⟨?_, ?_, fun n hn => ?_⟩
  · unfold snmpAsn1EncLengthCnt
    split_ifs <;> decide
  · unfold snmpAsn1EncLengthCnt
    split_ifs <;> omega
  · rcases n with _ | n
    · unfold snmpAsn1EncLengthCnt at hn
      split_ifs at hn <;> omega
    · exact hv.trans_le (Nat.pow_le_pow_right (show 0 < 256 by decide) (by omega : 2 ≤ n + 1 + 1))

/-- **A head is written** with the length in as many octets as are asked
for. -/
theorem writes_encTlv (type : UInt8) {lengthLen : ℕ} (htype : extended type = false)
    (hlen : snmpAsn1EncLengthCnt v ≤ lengthLen) (hv : v < 2 ^ 16) :
    Writes (snmpAns1EncTlv ⟨type, 0, lengthLen, v⟩) (headOctets type lengthLen v)
      ⟨type, 1, lengthLen, v⟩ := by
  have hcnt : (if v ≤ 127 then 1 else if v ≤ 255 then 2 else 3) = snmpAsn1EncLengthCnt v := by
    unfold snmpAsn1EncLengthCnt
    split_ifs <;> omega
  obtain ⟨hpos, -, -⟩ := encLengthCnt_spec hv
  rw [snmpAns1EncTlv, htype, if_neg Bool.false_ne_true, if_neg (not_not_intro rfl)]
  simp only [hcnt]
  rw [if_neg (by omega), if_pos (show lengthLen > 0 by omega)]
  obtain rfl | ⟨m, rfl⟩ : lengthLen = 1 ∨ ∃ m, lengthLen = m + 2 := by
    rcases lengthLen with _ | _ | m
    · omega
    · exact Or.inl rfl
    · exact Or.inr ⟨m, rfl⟩
  · rw [if_neg (by omega), headOctets_one]
    exact (writes_write type).bind ((writes_write _).bind (Writes.pure _))
  · have hoctets := ((writes_encLength hv m).bind
      (f := fun _ => pure (⟨type, 1, m + 2, v⟩ : Tlv)) (Writes.pure _))
    rw [bind_assoc, List.append_nil] at hoctets
    rw [if_pos (by omega), headOctets_succ]
    exact (writes_write type).bind ((writes_write _).bind hoctets)

/-- The octets of a length are shifted in one by one, behind what has been
read of it. -/
theorem reads_decLength (hv : v < 0xFFFF) (n : ℕ) :
    Reads (decLength n (v / 256 ^ n)) (bigEndian n v) v := by
  induction n with
  | zero =>
    rw [pow_zero, Nat.div_one]
    exact Reads.pure v
  | succ n ih =>
    have hsmall : ¬ v / 256 ^ (n + 1) > 0xFF := by
      have hle : v / 256 ^ (n + 1) ≤ v / 256 := Nat.div_le_div_left (by
        rw [pow_succ]
        exact Nat.le_mul_of_pos_left 256 (by positivity)) (by decide)
      omega
    have hnext : (v / 256 ^ (n + 1)) <<< 8 ||| (UInt8.ofNat (v >>> (8 * n))).toNat =
        v / 256 ^ n := by
      have hbyte : (UInt8.ofNat (v >>> (8 * n))).toNat = v / 256 ^ n % 256 := by
        rw [UInt8.toNat_ofNat', Nat.shiftRight_eq_div_pow, pow_mul]
        rfl
      have hdiv : v / 256 ^ (n + 1) = v / 256 ^ n / 256 := by
        rw [pow_succ, Nat.div_div_eq_div_mul]
      rw [hbyte, hdiv, ← Nat.shiftLeft_add_eq_or_of_lt (Nat.mod_lt _ (by decide)), Nat.shiftLeft_eq]
      exact Nat.div_add_mod' _ _
    have hlimit : v / 256 ^ n ≠ 0xFFFF := by
      have hle : v / 256 ^ n ≤ v := Nat.div_le_self _ _
      omega
    rw [decLength, if_neg hsmall, bigEndian_cons]
    refine (reads_read _).bind ?_
    simp only [hnext, if_neg hlimit]
    exact ih

/-- **A head is read as it was written**, in whatever number of octets its
length is coded, where it needs no more. -/
theorem reads_decTlv (type : UInt8) {lengthLen : ℕ} (htype : extended type = false)
    (hlen : snmpAsn1EncLengthCnt v ≤ lengthLen) (hshort : lengthLen ≤ 128) (hv : v < 0xFFFF) :
    Reads snmpAsn1DecTlv (headOctets type lengthLen v) ⟨type, 1, lengthLen, v⟩ := by
  obtain ⟨hpos, hone, hmore⟩ := encLengthCnt_spec (show v < 2 ^ 16 by omega)
  obtain rfl | ⟨m, rfl⟩ : lengthLen = 1 ∨ ∃ m, lengthLen = m + 2 := by
    rcases lengthLen with _ | _ | m
    · omega
    · exact Or.inl rfl
    · exact Or.inr ⟨m, rfl⟩
  · have hlt : v < 128 := hone hlen
    have hdata : (UInt8.ofNat v).toNat = v := by
      rw [UInt8.toNat_ofNat']
      omega
    have hlow : UInt8.ofNat v < 0x80 := by
      rw [UInt8.lt_iff_toNat_lt, hdata]
      exact hlt
    rw [headOctets_one]
    refine (reads_read type).bind ?_
    rw [htype, if_neg Bool.false_ne_true]
    refine (reads_read _).bind ?_
    rw [if_pos hlow, hdata]
    exact Reads.pure _
  · have hdata : (0x80 ||| UInt8.ofNat (m + 1)).toNat = 128 + (m + 1) := by
      have hm : (UInt8.ofNat (m + 1)).toNat = m + 1 := by
        rw [UInt8.toNat_ofNat']
        omega
      have hor : (0x80 ||| UInt8.ofNat (m + 1)).toNat = 1 <<< 7 ||| (UInt8.ofNat (m + 1)).toNat := rfl
      rw [hor, hm, ← Nat.shiftLeft_add_eq_or_of_lt (by omega)]
      rfl
    have hgt : (0x80 : UInt8) < 0x80 ||| UInt8.ofNat (m + 1) := by
      rw [UInt8.lt_iff_toNat_lt, hdata]
      show 128 < 128 + (m + 1)
      omega
    have hbytes : ((0x80 ||| UInt8.ofNat (m + 1)) - 0x80).toNat = m + 1 := by
      rw [UInt8.toNat_sub_of_le _ _ (UInt8.le_of_lt hgt), hdata]
      exact Nat.add_sub_cancel_left ..
    have hread := reads_decLength hv (m + 1)
    rw [Nat.div_eq_of_lt (hmore m hlen)] at hread
    rw [headOctets_succ]
    refine (reads_read type).bind ?_
    rw [htype, if_neg Bool.false_ne_true]
    refine (reads_read _).bind ?_
    rw [if_neg (UInt8.not_lt.2 (UInt8.le_of_lt hgt)), if_pos hgt]
    simp only [hbytes]
    refine Reads.left fun n hn => ?_
    rw [length_bigEndian] at hn
    rw [if_neg (by omega), ← List.append_nil (bigEndian (m + 1) v)]
    exact hread.bind (Reads.pure _)

theorem length_headOctets (type : UInt8) (v : ℕ) {lengthLen : ℕ} (hpos : 0 < lengthLen) :
    (headOctets type lengthLen v).length = 1 + lengthLen := by
  obtain rfl | ⟨m, rfl⟩ : lengthLen = 1 ∨ ∃ m, lengthLen = m + 2 := by
    rcases lengthLen with _ | _ | m
    · omega
    · exact Or.inl rfl
    · exact Or.inr ⟨m, rfl⟩
  · rfl
  · rw [headOctets_succ, List.length_append, List.length_append, length_bigEndian]
    simp only [List.length_singleton]
    omega

/-! ## Object identifiers -/

/-- The octets of a number in groups of seven bits, from the group `n`
down, less the last of them. -/
def moreOctets (v : ℕ) : ℕ → List UInt8
  | 0 => []
  | n + 1 => (UInt8.ofNat (v >>> (7 * (n + 1))) ||| 0x80) :: moreOctets v n

/-- The octets of a sub-identifier: seven bits each, the highest first, with
the top bit set in all but the last. -/
def subIdOctets (subId : UInt32) : List UInt8 :=
  moreOctets subId.toNat (subIdCnt 5 (subId.toNat >>> 7)) ++ [subId.toUInt8 &&& 0x7F]

theorem and_0x7F (data : UInt8) : (data &&& 0x7F).toNat = data.toNat % 128 :=
  Nat.and_two_pow_sub_one_eq_mod data.toNat 7

/-- The count of the groups behind the first of a number, where `n` groups
are enough for it and fewer are not. -/
theorem subIdCnt_eq {m : ℕ} : ∀ {v : ℕ}, n ≤ m → v < 2 ^ (7 * n) →
    (∀ k, n = k + 1 → 2 ^ (7 * k) ≤ v) → subIdCnt m v = n := by
  induction m generalizing n with
  | zero =>
    intro v hn _ _
    exact (Nat.le_zero.1 hn).symm
  | succ m ih =>
    intro v hn hlt hge
    have hshift : v >>> 7 = v / 128 := Nat.shiftRight_eq_div_pow v 7
    cases n with
    | zero =>
      have hzero : ¬ v > 0 := by
        rw [Nat.mul_zero, pow_zero] at hlt
        omega
      rw [subIdCnt, if_neg hzero]
    | succ n =>
      have hpos : v > 0 := (Nat.two_pow_pos _).trans_le (hge n rfl)
      have hnext : subIdCnt m (v >>> 7) = n := by
        refine ih (by omega) ?_ fun k hk => ?_
        · rw [hshift, Nat.div_lt_iff_lt_mul (by decide), show 128 = 2 ^ 7 from rfl, ← pow_add]
          exact hlt
        · rw [hshift, Nat.le_div_iff_mul_le (by decide), show 128 = 2 ^ 7 from rfl, ← pow_add]
          have := hge n rfl
          rwa [hk, Nat.mul_succ] at this
      rw [subIdCnt, if_pos hpos, hnext, Nat.add_comm]

theorem writes_encSubId_tail (subId : UInt32) (n : ℕ) :
    Writes (encSubId subId n true) (moreOctets subId.toNat n) () := by
  induction n with
  | zero => exact Writes.pure ()
  | succ n ih =>
    rw [encSubId, if_pos (Or.inr rfl)]
    exact (writes_write _).bind ih

/-- The groups in front of the first bit are left out. -/
theorem writes_encSubId (subId : UInt32) {n : ℕ} (hn : n ≤ 4)
    (hlt : subId.toNat < 2 ^ (7 * (n + 1))) :
    Writes (encSubId subId n false) (moreOctets subId.toNat (subIdCnt 5 (subId.toNat >>> 7))) () := by
  have hshift : subId.toNat >>> 7 = subId.toNat / 128 := Nat.shiftRight_eq_div_pow _ 7
  induction n with
  | zero =>
    have hnone : subIdCnt 5 (subId.toNat >>> 7) = 0 := by
      refine subIdCnt_eq (by omega) ?_ fun k hk => by omega
      rw [hshift]
      omega
    rw [hnone]
    exact Writes.pure ()
  | succ n ih =>
    have hgroup : subId.toNat >>> (7 * (n + 1)) = subId.toNat / 2 ^ (7 * (n + 1)) :=
      Nat.shiftRight_eq_div_pow _ _
    by_cases hfirst : subId.toNat < 2 ^ (7 * (n + 1))
    · have hcode : ¬ (UInt8.ofNat (subId.toNat >>> (7 * (n + 1))) ≠ 0 ∨ false = true) := by
        rw [hgroup, Nat.div_eq_of_lt hfirst]
        decide
      rw [encSubId, if_neg hcode]
      exact ih (by omega) hfirst
    · have hle : 2 ^ (7 * (n + 1)) ≤ subId.toNat := Nat.not_lt.1 hfirst
      have hsmall : subId.toNat / 2 ^ (7 * (n + 1)) < 128 := by
        rw [Nat.div_lt_iff_lt_mul (Nat.two_pow_pos _), show 128 = 2 ^ 7 from rfl, ← pow_add]
        rwa [Nat.mul_succ, Nat.add_comm] at hlt
      have hpos : 0 < subId.toNat / 2 ^ (7 * (n + 1)) :=
        Nat.div_pos hle (Nat.two_pow_pos _)
      have hcode : UInt8.ofNat (subId.toNat >>> (7 * (n + 1))) ≠ 0 := by
        intro hzero
        have hnat := congrArg UInt8.toNat hzero
        rw [hgroup, UInt8.toNat_ofNat', Nat.mod_eq_of_lt (by omega)] at hnat
        exact absurd hnat (by simpa using hpos.ne')
      have hcnt : subIdCnt 5 (subId.toNat >>> 7) = n + 1 := by
        refine subIdCnt_eq (by omega) ?_ fun k hk => ?_
        · rw [hshift, Nat.div_lt_iff_lt_mul (by decide), show 128 = 2 ^ 7 from rfl, ← pow_add]
          exact hlt
        · obtain rfl : n = k := by omega
          rw [hshift, Nat.le_div_iff_mul_le (by decide), show 128 = 2 ^ 7 from rfl, ← pow_add]
          exact hle
      rw [encSubId, if_pos (Or.inl hcode), hcnt]
      exact (writes_write _).bind (writes_encSubId_tail subId n)

/-- A group shifted in behind the groups in front of it gives the number up
to this group. -/
theorem shift_in {data : UInt8} (v n : ℕ)
    (hdata : data.toNat % 128 = v >>> (7 * n) % 128) :
    UInt32.ofNat (v >>> (7 * (n + 1))) <<< 7 + (data &&& 0x7F).toUInt32 =
      UInt32.ofNat (v >>> (7 * n)) := by
  have hnext : v >>> (7 * (n + 1)) = v >>> (7 * n) / 128 := by
    rw [Nat.mul_succ, Nat.shiftRight_add]
    exact Nat.shiftRight_eq_div_pow _ 7
  have hle : v >>> (7 * n) ≤ v := by
    rw [Nat.shiftRight_eq_div_pow]
    exact Nat.div_le_self _ _
  refine UInt32.toNat_inj.1 ?_
  rw [UInt32.toNat_add, UInt32.toNat_shiftLeft, UInt8.toNat_toUInt32, and_0x7F, hdata, hnext,
    UInt32.toNat_ofNat', UInt32.toNat_ofNat', Nat.shiftLeft_eq]
  show (v >>> (7 * n) / 128 % 2 ^ 32 * 2 ^ 7 % 2 ^ 32 + v >>> (7 * n) % 128) % 2 ^ 32 =
    v >>> (7 * n) % 2 ^ 32
  omega

/-- An octet that more follow has its top bit set, and its other bits are
the group. -/
theorem more_toNat (v n : ℕ) : (UInt8.ofNat (v >>> (7 * n)) ||| 0x80) &&& 0x80 ≠ 0 ∧
    (UInt8.ofNat (v >>> (7 * n)) ||| 0x80).toNat % 128 = v >>> (7 * n) % 128 := by
  have hor : (UInt8.ofNat (v >>> (7 * n)) ||| 0x80).toNat =
      (UInt8.ofNat (v >>> (7 * n))).toNat ||| 128 := rfl
  refine ⟨?_, ?_⟩
  · rw [ne_eq, and_0x80, hor, Nat.not_lt]
    exact Nat.right_le_or
  · rw [hor, UInt8.toNat_ofNat', show 128 = 2 ^ 7 from rfl, Nat.or_mod_two_pow]
    show (v >>> (7 * n) % 256 % 128) ||| 0 = _
    rw [Nat.or_zero]
    omega

theorem last_toNat (subId : UInt32) : (subId.toUInt8 &&& 0x7F) &&& 0x80 = 0 ∧
    (subId.toUInt8 &&& 0x7F).toNat = subId.toNat % 128 := by
  have hlow : (subId.toUInt8 &&& 0x7F).toNat = subId.toNat % 128 := by
    rw [and_0x7F, UInt32.toNat_toUInt8]
    omega
  refine ⟨?_, hlow⟩
  rw [and_0x80, hlow]
  omega

theorem decMore_end (h : data &&& 0x80 = 0) (len : ℕ) (subId : UInt32) :
    decMore len data subId = pure (subId, len) := by
  rw [decMore.eq_def]
  exact if_pos h

theorem decMore_more (h : data &&& 0x80 ≠ 0) (len : ℕ) (subId : UInt32) :
    decMore (len + 1) data subId = (do
      let data ← snmpPbufStreamRead
      decMore len data (subId <<< 7 + (data &&& 0x7F).toUInt32)) := by
  rw [decMore.eq_def]
  exact if_neg h

/-- The octets behind the first of a sub-identifier are read up to its last
one, and give the sub-identifier. -/
theorem reads_decMore (subId : UInt32) (len n : ℕ) : ∀ {data : UInt8}, data &&& 0x80 ≠ 0 →
    Reads (decMore (n + 1 + len) data (UInt32.ofNat (subId.toNat >>> (7 * (n + 1)))))
      (moreOctets subId.toNat n ++ [subId.toUInt8 &&& 0x7F]) (subId, len) := by
  induction n with
  | zero =>
    intro data hmore
    obtain ⟨hlast, hvalue⟩ := last_toNat subId
    have hin := shift_in subId.toNat 0 (show (subId.toUInt8 &&& 0x7F).toNat % 128 = _ by
      rw [hvalue, Nat.mul_zero, Nat.shiftRight_zero, Nat.mod_mod])
    rw [Nat.mul_zero, Nat.shiftRight_zero, UInt32.ofNat_toNat] at hin
    rw [Nat.zero_add, Nat.add_comm 1 len, decMore_more hmore]
    refine (reads_read _).bind (?_ : Reads _ [] _)
    rw [hin, decMore_end hlast]
    exact Reads.pure _
  | succ n ih =>
    intro data hmore
    obtain ⟨hnext, hvalue⟩ := more_toNat subId.toNat (n + 1)
    rw [show n + 1 + 1 + len = n + 1 + len + 1 by omega, decMore_more hmore]
    refine (reads_read _).bind ?_
    rw [shift_in subId.toNat (n + 1) hvalue]
    exact ih hnext

theorem length_moreOctets (v n : ℕ) : (moreOctets v n).length = n := by
  induction n with
  | zero => rfl
  | succ n ih => rw [moreOctets, List.length_cons, ih]

theorem length_subIdOctets (subId : UInt32) :
    (subIdOctets subId).length = 1 + subIdCnt 5 (subId.toNat >>> 7) := by
  rw [subIdOctets, List.length_append, length_moreOctets, List.length_singleton, Nat.add_comm]

/-- The number of groups says how large the sub-identifier is. -/
theorem subIdCnt_spec (subId : UInt32) : subIdCnt 5 (subId.toNat >>> 7) ≤ 4 ∧
    subId.toNat < 2 ^ (7 * (subIdCnt 5 (subId.toNat >>> 7) + 1)) := by
  have hlt := subId.toNat_lt
  have hshift : subId.toNat >>> 7 = subId.toNat / 128 := Nat.shiftRight_eq_div_pow _ 7
  obtain ⟨n, hn, hin, hout⟩ : ∃ n ≤ 4, subId.toNat / 128 < 2 ^ (7 * n) ∧
      ∀ k, n = k + 1 → 2 ^ (7 * k) ≤ subId.toNat / 128 := by
    by_cases h1 : subId.toNat < 2 ^ 7
    · exact ⟨0, by omega, by omega, by rintro k ⟨⟩⟩
    by_cases h2 : subId.toNat < 2 ^ 14
    · exact ⟨1, by omega, by omega, by rintro k ⟨⟩; omega⟩
    by_cases h3 : subId.toNat < 2 ^ 21
    · exact ⟨2, by omega, by omega, by rintro k ⟨⟩; omega⟩
    by_cases h4 : subId.toNat < 2 ^ 28
    · exact ⟨3, by omega, by omega, by rintro k ⟨⟩; omega⟩
    · exact ⟨4, by omega, by omega, by rintro k ⟨⟩; omega⟩
  rw [hshift, subIdCnt_eq (by omega) hin hout]
  refine ⟨hn, ?_⟩
  rw [Nat.mul_succ, pow_add, ← Nat.div_lt_iff_lt_mul (by decide)]
  exact hin

/-- **A sub-identifier is read as it was written**, in groups of seven bits
with a mark on all but the last. -/
theorem reads_subId (subId : UInt32) : ∃ data octets, subIdOctets subId = data :: octets ∧
    ∀ len, Reads (decMore (octets.length + len) data (data &&& 0x7F).toUInt32) octets
      (subId, len) := by
  obtain ⟨-, hlt⟩ := subIdCnt_spec subId
  obtain ⟨hlast, hvalue⟩ := last_toNat subId
  rw [subIdOctets]
  generalize subIdCnt 5 (subId.toNat >>> 7) = n at hlt
  cases n with
  | zero =>
    refine ⟨subId.toUInt8 &&& 0x7F, [], rfl, fun len => ?_⟩
    have hid : ((subId.toUInt8 &&& 0x7F) &&& 0x7F).toUInt32 = subId := by
      refine UInt32.toNat_inj.1 ?_
      rw [UInt8.toNat_toUInt32, and_0x7F, hvalue]
      omega
    rw [decMore_end hlast, hid, List.length_nil, Nat.zero_add]
    exact Reads.pure _
  | succ n =>
    obtain ⟨hmore, hhead⟩ := more_toNat subId.toNat (n + 1)
    refine ⟨_, moreOctets subId.toNat n ++ [subId.toUInt8 &&& 0x7F], rfl, fun len => ?_⟩
    have hfirst : ((UInt8.ofNat (subId.toNat >>> (7 * (n + 1))) ||| 0x80) &&& 0x7F).toUInt32 =
        UInt32.ofNat (subId.toNat >>> (7 * (n + 1))) := by
      have hsmall : subId.toNat >>> (7 * (n + 1)) < 128 := by
        rw [Nat.shiftRight_eq_div_pow, Nat.div_lt_iff_lt_mul (Nat.two_pow_pos _),
          show 128 = 2 ^ 7 from rfl, ← pow_add]
        rwa [Nat.mul_succ, Nat.add_comm] at hlt
      refine UInt32.toNat_inj.1 ?_
      rw [UInt8.toNat_toUInt32, and_0x7F, hhead, UInt32.toNat_ofNat', Nat.mod_eq_of_lt hsmall]
      exact (Nat.mod_eq_of_lt (hsmall.trans (by decide))).symm
    have hread := reads_decMore subId len n hmore
    rw [hfirst, List.length_append, length_moreOctets, List.length_singleton]
    exact hread

/-- The octets of an object identifier: one for its first two
sub-identifiers, then those of the others. -/
def oidOctets : List UInt32 → List UInt8
  | id₀ :: id₁ :: oid => (id₀ * 40 + id₁).toUInt8 :: oid.flatMap subIdOctets
  | _ => []

/-- The object identifiers whose first two sub-identifiers one octet
holds. -/
def Packs : List UInt32 → Prop
  | id₀ :: id₁ :: _ => id₀ ≤ 1 ∧ id₁ < 40 ∨ id₀ = 2 ∧ id₁ < 176
  | _ => False

instance : DecidablePred Packs
  | [] => isFalse id
  | [_] => isFalse id
  | _ :: _ :: _ => inferInstanceAs (Decidable (_ ∨ _))

theorem writes_encOid {id₀ id₁ : UInt32} {oid : List UInt32} :
    Writes (snmpAsn1EncOid (id₀ :: id₁ :: oid)) (oidOctets (id₀ :: id₁ :: oid)) () := by
  refine (writes_write _).bind (Writes.forM oid fun subId _ => ?_)
  have hlt := subId.toNat_lt
  exact (writes_encSubId subId (n := 4) (by omega) (by omega)).bind (writes_write _)

/-- `snmp_asn1_enc_oid_cnt` says how many octets `snmp_asn1_enc_oid` writes. -/
theorem length_oidOctets (id₀ id₁ : UInt32) (oid : List UInt32) :
    (oidOctets (id₀ :: id₁ :: oid)).length = snmpAsn1EncOidCnt (id₀ :: id₁ :: oid) := by
  have hlen : (id₀ :: id₁ :: oid).length > 1 := by simp
  rw [snmpAsn1EncOidCnt, if_pos hlen, oidOctets, List.length_cons, List.length_flatMap, Nat.add_comm]
  simp only [length_subIdOctets, List.drop_succ_cons, List.drop_zero]

/-- The loop reads the sub-identifiers, where the arrays have room. -/
theorem reads_decSubIds (room most : ℕ) (oid : List UInt32) : ∀ (acc : List UInt32) (rounds : ℕ),
    acc.length + oid.length ≤ room → acc.length + oid.length ≤ most →
    (oid.flatMap subIdOctets).length ≤ rounds →
    Reads (decSubIds room most rounds (oid.flatMap subIdOctets).length acc)
      (oid.flatMap subIdOctets) (acc ++ oid) := by
  induction oid with
  | nil =>
    intro acc rounds _ _ _
    rw [List.append_nil]
    cases rounds with
    | zero => exact Reads.pure acc
    | succ rounds => exact Reads.pure acc
  | cons subId oid ih =>
    intro acc rounds hroom hmost hrounds
    obtain ⟨data, octets, heq, hread⟩ := reads_subId subId
    rw [List.length_cons] at hroom hmost
    have hlength : ((subId :: oid).flatMap subIdOctets).length =
        octets.length + (oid.flatMap subIdOctets).length + 1 := by
      rw [List.flatMap_cons, heq, List.cons_append, List.length_cons, List.length_append]
    rw [hlength] at hrounds ⊢
    obtain ⟨left, rfl⟩ : ∃ left, rounds = left + 1 := ⟨rounds - 1, by omega⟩
    have hacc : (acc ++ [subId]).length = acc.length + 1 := by simp
    have hrest := ih (acc ++ [subId]) left (by omega) (by omega) (by omega)
    rw [List.append_assoc, List.singleton_append] at hrest
    rw [decSubIds, if_pos ⟨Nat.succ_pos _, by omega⟩, List.flatMap_cons, heq]
    refine (reads_read data).bind ((hread _).bind ?_)
    dsimp only
    rw [if_neg (by omega)]
    exact hrest

/-- **The first octet gives the two sub-identifiers back**, where they fit
it: the first is 0 or 1 with a second below 40, or 2. -/
theorem first_octet {id₀ id₁ : UInt32} (h : id₀ ≤ 1 ∧ id₁ < 40 ∨ id₀ = 2 ∧ id₁ < 176) :
    (if (id₀ * 40 + id₁).toUInt8 = 0x2B then ([1, 3] : List UInt32)
      else if (id₀ * 40 + id₁).toUInt8 < 40 then [0, (id₀ * 40 + id₁).toUInt8.toUInt32]
      else if (id₀ * 40 + id₁).toUInt8 < 80 then [1, ((id₀ * 40 + id₁).toUInt8 - 40).toUInt32]
      else [2, ((id₀ * 40 + id₁).toUInt8 - 80).toUInt32]) = [id₀, id₁] := by
  have hnat : id₀.toNat ≤ 1 ∧ id₁.toNat < 40 ∨ id₀.toNat = 2 ∧ id₁.toNat < 176 :=
    h.imp id fun h => ⟨congrArg UInt32.toNat h.1, h.2⟩
  have hoctet : (id₀ * 40 + id₁).toUInt8.toNat = 40 * id₀.toNat + id₁.toNat := by
    rw [UInt32.toNat_toUInt8, UInt32.toNat_add, UInt32.toNat_mul]
    show ((id₀.toNat * 40) % 2 ^ 32 + id₁.toNat) % 2 ^ 32 % 256 = _
    omega
  generalize (id₀ * 40 + id₁).toUInt8 = data at hoctet
  have hpair : ∀ {a b : UInt32}, a.toNat = id₀.toNat → b.toNat = id₁.toNat → [a, b] = [id₀, id₁] := by
    intro a b ha hb
    rw [UInt32.toNat_inj.1 ha, UInt32.toNat_inj.1 hb]
  have hsub : ∀ c : UInt8, c.toNat ≤ data.toNat → (data - c).toUInt32.toNat = data.toNat - c.toNat := by
    intro c hc
    rw [UInt8.toNat_toUInt32, UInt8.toNat_sub_of_le _ _ hc]
  simp only [← UInt8.toNat_inj, UInt8.lt_iff_toNat_lt]
  show (if data.toNat = 43 then _ else if data.toNat < 40 then _ else if data.toNat < 80 then _ else _) = _
  split_ifs with h43 h40 h80
  · exact hpair (show 1 = _ by omega) (show 3 = _ by omega)
  · exact hpair (show 0 = _ by omega) (by rw [UInt8.toNat_toUInt32]; omega)
  · exact hpair (show 1 = _ by omega) ((hsub 40 (Nat.not_lt.1 h40)).trans (show _ - 40 = _ by omega))
  · exact hpair (show 2 = _ by omega) ((hsub 80 (Nat.not_lt.1 h80)).trans (show _ - 80 = _ by omega))

/-- **An object identifier is read as it was written**, where the array has
room for its sub-identifiers. -/
theorem reads_decOid {room most : ℕ} {oid : List UInt32} (hpacks : Packs oid)
    (hroom : oid.length ≤ room) (hmost : oid.length ≤ most) :
    Reads (snmpAsn1DecOid room (oidOctets oid).length most) (oidOctets oid) oid := by
  match oid, hpacks with
  | id₀ :: id₁ :: rest, hpacks =>
    rw [List.length_cons, List.length_cons] at hroom hmost
    have hread := reads_decSubIds room most rest [id₀, id₁]
      (oidOctets (id₀ :: id₁ :: rest)).length (by simp; omega) (by simp; omega)
      (by simp [oidOctets])
    rw [snmpAsn1DecOid, if_pos (by simp [oidOctets]), if_neg (by omega), oidOctets]
    refine (reads_read _).bind ?_
    dsimp only
    rw [first_octet hpacks, if_neg (by omega)]
    exact hread

/-! ## Raw data -/

theorem reads_decRaw (bs : List UInt8) : Reads (decRaw bs.length) bs bs := by
  induction bs with
  | nil => exact Reads.pure []
  | cons b bs ih =>
    exact (reads_read b).bind (ih.map (b :: ·))

end Snmp

end SlipBoard
