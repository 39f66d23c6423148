import SlipBoard.I2c.Model.Device
/-!
# Soft I2C — what the pin helpers spell

`Low` and `High` are the states of the bus between two calls of the pin
helpers: where the master has its outputs, and what the levels so far
have spelt. Each helper takes one to another, and what a call spells is
put together from them: a START, a byte behind its eight bits and the
answer, a STOP. What is asked of the device is only what it does when
the clock rises (`Listens`, `Sends`).
-/

namespace SlipBoard

namespace I2c

open TwoWire

variable {δ : Device} {base b : Bus} {sda slave v : Bool} {bits : Option (List Bool)}
  {bs : List Bool} {es : List Event} {A : Bool → Prop} {a : UInt8} {data : List UInt8} {n : ℕ}

/-- What has been logged since `base`, and the events it spells. -/
def Since (base b : Bus) (es : List Event) : Prop :=
  b.attempts = base.attempts ∧ ∃ ls, b.levels = base.levels ++ ls ∧ base.seen.events ls = es

theorem since_self (b : Bus) : Since b b [] := ⟨rfl, [], (List.append_nil _).symm, rfl⟩

/-- The clock is low: SDA may change, and what has been seen since `base` is
in `es`, with the bits of an open byte in `bits`. -/
structure Low (base b : Bus) (sda : Bool) (bits : Option (List Bool)) (es : List Event) :
    Prop where
  scl : b.scl = false
  sda : b.sda = sda
  seen : b.seen = ⟨b.level, bits⟩
  since : Since base b es

/-- The clock is high: a change of SDA would be a start or a stop, and the
slave's side of SDA is `slave`. -/
structure High (base b : Bus) (sda slave : Bool) (bits : Option (List Bool)) (es : List Event) :
    Prop where
  scl : b.scl = true
  sda : b.sda = sda
  slave : b.slave = slave
  seen : b.seen = ⟨b.level, bits⟩
  since : Since base b es

/-- **The device listens**: in the first eight clocks of a group it lets
the line go, and what it answers in the ninth is one of `A`. -/
structure Listens (δ : Device) (A : Bool → Prop) (base : Bus) (es : List Event) : Prop where
  free : ∀ b sda bs, Low base b sda (some bs) es → bs.length ≠ 8 → δ.drive b = true
  answer : ∀ b sda bs, Low base b sda (some bs) es → bs.length = 8 → A (!δ.drive b)

/-- **The device sends** these eight bits, and lets the line go in the
ninth clock. -/
structure Sends (δ : Device) (bits : List Bool) (base : Bus) (es : List Event) : Prop where
  bit : ∀ b sda bs, Low base b sda (some bs) es →
    bits[bs.length]? = some (δ.drive b) ∨ 8 ≤ bs.length
  answer : ∀ b sda bs, Low base b sda (some bs) es → bs.length = 8 → δ.drive b = true

theorem seen_sample (b : Bus) : b.sample.seen = b.seen.next b.level := Decoder.feed_append

theorem Since.sample (h : Since base b es) :
    Since base b.sample (es ++ (b.seen.react b.level).2) := by
  obtain ⟨hattempts, ls, hls, hes⟩ := h
  refine ⟨hattempts, ls ++ [b.level], ?_, ?_⟩
  · rw [← List.append_assoc, ← hls]
    rfl
  · have hseen : base.seen.feed ls = b.seen := by
      rw [Bus.seen, Bus.seen, hls, Decoder.feed_append]
    rw [Decoder.events_append, hes, hseen, Decoder.events_singleton]

/-! ## The clock low -/

/-- A level of SDA that is set while the clock is low spells nothing. -/
theorem low_sample (hscl : b.scl = false) (hsda : b.sda = sda) (hbits : b.seen.bits = bits)
    (hsince : Since base b es) : Low base b.sample sda bits es := by
  have hreact : b.seen.react b.level = (bits, []) := by
    rw [Decoder.react_low hscl, hbits]
  refine ⟨hscl, hsda, ?_, ?_⟩
  · rw [seen_sample, Decoder.next, hreact]
    rfl
  · have hnext := hsince.sample
    rwa [hreact, List.append_nil] at hnext

theorem Low.bits_eq (h : Low base b sda bits es) : b.seen.bits = bits := by
  rw [h.seen]

/-- The slave's moves spell nothing either, as long as the clock is low. -/
theorem Low.slaveMoves (h : Low base b sda bits es) (moves : List Bool) :
    Low base (b.slaveMoves moves) sda bits es := by
  induction moves generalizing b with
  | nil => exact h
  | cons v moves ih => exact ih (low_sample h.scl h.sda h.bits_eq h.since)

theorem Low.i2cWait (h : Low base b sda bits es) : Low base (δ.i2cWait b) sda bits es := by
  have hmoves := h.slaveMoves (δ.moves b.ticks)
  rw [Device.i2cWait, h.scl]
  exact ⟨hmoves.scl, hmoves.sda, hmoves.seen, hmoves.since⟩

theorem Low.setLowSCL (h : Low base b sda bits es) : Low base (δ.setLowSCL b) sda bits es :=
  (low_sample (b := { b with scl := false }) rfl h.sda h.bits_eq h.since).i2cWait

theorem Low.setSDA (h : Low base b sda bits es) (v : Bool) : Low base (δ.setSDA b v) v bits es :=
  (low_sample (b := { b with sda := v }) h.scl rfl h.bits_eq h.since).i2cWait

/-! ## The clock high -/

/-- A level with the clock high, and what the decoder makes of it. -/
theorem high_sample {r : Option (List Bool) × List Event} (hscl : b.scl = true) (hsda : b.sda = sda)
    (hslave : b.slave = slave) (hsince : Since base b es)
    (hreact : b.seen.react ⟨true, sda && slave⟩ = r) :
    High base b.sample sda slave r.1 (es ++ r.2) := by
  have hlevel : b.seen.react b.level = r := by
    rw [Bus.level, hscl, hsda, hslave, hreact]
  refine ⟨hscl, hsda, hslave, ?_, ?_⟩
  · rw [seen_sample, Decoder.next, hlevel]
    rfl
  · have hnext := hsince.sample
    rwa [hlevel] at hnext

theorem High.i2cWait (h : High base b sda slave bits es) :
    High base (δ.i2cWait b) sda slave bits es := by
  rw [Device.i2cWait, h.scl]
  exact ⟨h.scl, h.sda, h.slave, h.seen, h.since⟩

theorem High.setLowSCL (h : High base b sda slave bits es) :
    Low base (δ.setLowSCL b) sda bits es := by
  have hbits : b.seen.bits = bits := by rw [h.seen]
  exact (low_sample (b := { b with scl := false }) rfl h.sda hbits h.since).i2cWait

theorem High.level_eq (h : High base b sda slave bits es) : b.level = ⟨true, sda && slave⟩ := by
  rw [Bus.level, h.scl, h.sda, h.slave]

theorem High.seen_eq (h : High base b sda slave bits es) :
    b.seen = ⟨⟨true, sda && slave⟩, bits⟩ := by
  rw [h.seen, h.level_eq]

/-- `SetHighSCL` on a high clock changes nothing of what has been spelt. -/
theorem High.setHighSCL (h : High base b sda slave bits es) :
    High base (δ.setHighSCL b) sda slave bits es := by
  have hsame : b.seen.react ⟨true, sda && slave⟩ = (bits, []) := by
    rw [h.seen_eq]
    exact Decoder.react_same rfl
  have hhigh := high_sample (b := { b with scl := true }) rfl h.sda h.slave h.since hsame
  rw [List.append_nil] at hhigh
  rw [Device.setHighSCL, h.scl]
  exact hhigh.i2cWait

/-- A line that stays where it is spells nothing, even with the clock high. -/
theorem High.setSDA_same (h : High base b sda slave bits es)
    (hsame : (sda && slave) = (v && slave)) :
    High base (δ.setSDA b v) v slave bits es := by
  have hreact : b.seen.react ⟨true, v && slave⟩ = (bits, []) := by
    rw [h.seen_eq, hsame]
    exact Decoder.react_same rfl
  have hhigh := high_sample (b := { b with sda := v }) h.scl rfl h.slave h.since hreact
  rw [List.append_nil] at hhigh
  exact hhigh.i2cWait

/-- A START: SDA falls while the clock is high. -/
theorem High.setSDA_false (h : High base b true true bits es) :
    High base (δ.setSDA b false) false true (some []) (es ++ [.start]) := by
  have hreact : b.seen.react ⟨true, false⟩ = (some [], [.start]) := by
    rw [h.seen_eq]
    exact Decoder.react_start rfl
  exact (high_sample (b := { b with sda := false }) h.scl rfl h.slave h.since hreact).i2cWait

/-- A STOP: SDA rises while the clock is high. -/
theorem High.setSDA_true (h : High base b false true bits es) :
    High base (δ.setSDA b true) true true none (es ++ [.stop]) := by
  have hreact : b.seen.react ⟨true, true⟩ = (none, [.stop]) := by
    rw [h.seen_eq]
    exact Decoder.react_stop rfl
  exact (high_sample (b := { b with sda := true }) h.scl rfl h.slave h.since hreact).i2cWait

/-! ## The rise of the clock -/

/-- The clock rises behind the slave's last move, and the level of SDA then
is what is spelt. -/
theorem Low.setHighSCL (h : Low base b sda bits es) {r : Option (List Bool) × List Event}
    (hslave : δ.drive b = slave)
    (hreact : Decoder.react ⟨⟨false, sda && slave⟩, bits⟩ ⟨true, sda && slave⟩ = r) :
    High base (δ.setHighSCL b) sda slave r.1 (es ++ r.2) := by
  have hset : Low base { b with slave := slave }.sample sda bits es :=
    low_sample h.scl h.sda h.bits_eq h.since
  have hseen : ({ b with slave := slave } : Bus).sample.seen = ⟨⟨false, sda && slave⟩, bits⟩ := by
    rw [hset.seen, Bus.level, hset.scl, hset.sda]
    rfl
  unfold Device.setHighSCL
  rw [if_neg (by rw [h.scl]; exact Bool.false_ne_true), hslave]
  refine High.i2cWait (high_sample rfl hset.sda rfl hset.since ?_)
  exact (congrArg (fun d => Decoder.react d _) hseen).trans hreact

/-- A bit of a group: the clock rises, and both sides of SDA have a part in
the bit. -/
theorem Low.setHighSCL_bit (h : Low base b sda (some bs) es) (hlen : bs.length ≠ 8)
    (hslave : δ.drive b = slave) :
    High base (δ.setHighSCL b) sda slave (some (bs ++ [sda && slave])) es := by
  have hhigh := h.setHighSCL hslave (Decoder.react_bit rfl rfl hlen (sda && slave))
  rwa [List.append_nil] at hhigh

/-- A bit that the device lets the master set, by leaving SDA alone. -/
theorem Low.setHighSCL_free (hlistens : Listens δ A base es) (h : Low base b sda (some bs) es)
    (hlen : bs.length ≠ 8) : High base (δ.setHighSCL b) sda true (some (bs ++ [sda])) es := by
  have hhigh := h.setHighSCL_bit hlen (hlistens.free b sda bs h hlen)
  rwa [Bool.and_true] at hhigh

/-- The clock behind eight bits spells the byte with its acknowledgement,
which is a low SDA. -/
theorem Low.setHighSCL_ack (h : Low base b sda (some bs) es) (hlen : bs.length = 8)
    (hslave : δ.drive b = slave) :
    High base (δ.setHighSCL b) sda slave (some [])
      (es ++ [.byte (ofBits bs) (!(sda && slave))]) :=
  h.setHighSCL hslave (Decoder.react_ack rfl rfl hlen (sda && slave))

/-! ## START and STOP -/

/-- `i2c_start` on a bus that is let go spells a START, and leaves the clock
low. -/
theorem High.i2cStart (h : High base b true true bits es) :
    Low base (δ.i2cStart b) true (some []) (es ++ [.start]) := by
  have hfirst : High base (δ.setSDA (δ.setHighSCL b) true) true true bits es :=
    h.setHighSCL.setSDA_same rfl
  exact (hfirst.setHighSCL.setSDA_false).setLowSCL.setSDA true

/-- `i2c_start` behind another, or behind a byte: the clock it begins with
reads a bit, which the START drops. -/
theorem Low.i2cStart (hlistens : Listens δ A base es) (h : Low base b true (some []) es) :
    Low base (δ.i2cStart b) true (some []) (es ++ [.start]) := by
  have hrise : High base (δ.setHighSCL b) true true (some [true]) es :=
    h.setHighSCL_free hlistens (by simp)
  have hfirst : High base (δ.setSDA (δ.setHighSCL b) true) true true (some [true]) es :=
    hrise.setSDA_same rfl
  exact (hfirst.setHighSCL.setSDA_false).setLowSCL.setSDA true

/-- `i2c_stop`: the clock it begins with reads a bit, which the STOP
drops. -/
theorem Low.i2cStop (hlistens : Listens δ A base es) (h : Low base b sda (some []) es) :
    High base (δ.i2cStop b) true true none (es ++ [.stop]) := by
  have hlow : Low base (δ.setSDA (δ.setLowSCL b) false) false (some []) es :=
    h.setLowSCL.setSDA false
  have hrise : High base (δ.setHighSCL (δ.setSDA (δ.setLowSCL b) false)) false true
      (some [false]) es :=
    hlow.setHighSCL_free hlistens (by simp)
  have hagain : High base (δ.setSDA (δ.setHighSCL (δ.setSDA (δ.setLowSCL b) false)) false)
      false true (some [false]) es := hrise.setSDA_same rfl
  exact hagain.setHighSCL.setSDA_true

/-! ## Bytes that are written -/

/-- The bits of a byte in the order `_i2c_write` sends them. -/
def bitsOf : ℕ → UInt8 → List Bool
  | 0, _ => []
  | n + 1, a => decide (a &&& 0x80 ≠ 0) :: bitsOf n (a <<< 1)

theorem length_bitsOf (n : ℕ) (a : UInt8) : (bitsOf n a).length = n := by
  induction n generalizing a with
  | zero => rfl
  | succ n ih => rw [bitsOf, List.length_cons, ih]

/-- What holds of the 256 bytes, one by one, holds of every byte. -/
theorem forall_byte {P : UInt8 → Prop} (h : ∀ n < 256, P (UInt8.ofNat n)) (a : UInt8) : P a := by
  have ha := h a.toNat a.toNat_lt
  rwa [UInt8.ofNat_toNat] at ha

/-- The eight bits of a byte, the highest first, spell the byte. -/
theorem ofBits_bitsOf (a : UInt8) : ofBits (bitsOf 8 a) = a := by
  refine forall_byte (P := fun a => ofBits (bitsOf 8 a) = a) ?_ a
  decide +kernel

/-- The bits are read from the line as they are sent, where the device
listens. -/
theorem writeBits_low (hlistens : Listens δ A base es)
    (h : Low base (δ.setLowSCL b) sda (some bs) es) (hlen : bs.length + n ≤ 8) :
    ∃ sda', Low base (δ.setLowSCL (δ.writeBits n a b)) sda' (some (bs ++ bitsOf n a)) es := by
  induction n generalizing b sda bs a with
  | zero =>
    rw [bitsOf, List.append_nil]
    exact ⟨sda, h⟩
  | succ n ih =>
    have hset := h.setSDA (δ := δ) (decide (a &&& 0x80 ≠ 0))
    have hrise : High base (δ.setHighSCL (δ.setSDA (δ.setLowSCL b) (decide (a &&& 0x80 ≠ 0))))
        _ true (some (bs ++ [decide (a &&& 0x80 ≠ 0)])) es :=
      hset.setHighSCL_free hlistens (by omega)
    obtain ⟨sda', hrest⟩ := ih (a := a <<< 1) hrise.setLowSCL
      (by rw [List.length_append, List.length_singleton]; omega)
    rw [List.append_assoc] at hrest
    exact ⟨sda', hrest⟩

/-- **`_i2c_write`** spells its byte, with the answer of the device, and
returns whether that was an acknowledgement. -/
theorem Low.i2cWriteByte (hlistens : Listens δ A base es) (h : Low base b sda (some []) es)
    (a : UInt8) :
    ∃ b' ack, δ.i2cWriteByte a b = (b', ack) ∧ A ack ∧
      Low base b' true (some []) (es ++ [.byte a ack]) := by
  obtain ⟨sda', hbits⟩ := writeBits_low (n := 8) (a := a) hlistens (h.setLowSCL (δ := δ)) (by simp)
  have hup := hbits.setSDA (δ := δ) true
  have hrise := hup.setHighSCL_ack (δ := δ) (length_bitsOf 8 a) rfl
  rw [List.nil_append, ofBits_bitsOf, Bool.true_and] at hrise
  have hack := hlistens.answer _ _ _ hup (length_bitsOf 8 a)
  refine ⟨_, !δ.drive (δ.setSDA (δ.setLowSCL (δ.writeBits 8 a b)) true), Prod.ext rfl ?_, hack,
    hrise.setLowSCL⟩
  show (!Level.sda (Bus.level _)) = _
  rw [hrise.level_eq, Bool.true_and]

/-- The data go out one byte after the other, the last of them first, each
with the acknowledgement it gets. -/
theorem Low.writeData (hlistens : ∀ acks,
    Listens δ A base (es ++ List.zipWith .byte (data.take n).reverse acks))
    (h : Low base b sda (some []) es) (state : Bool) (hn : n ≤ data.length) :
    ∃ b' sda' acks, δ.writeData data n (b, state) = (b', state && acks.all id) ∧
      acks.length = n ∧ (∀ ack ∈ acks, A ack) ∧ Low base b' sda' (some [])
        (es ++ List.zipWith Event.byte (data.take n).reverse acks) := by
  induction n generalizing b sda es state with
  | zero =>
    refine ⟨b, sda, [], ?_, rfl, by simp, ?_⟩
    · rw [List.all_nil, Bool.and_true]
      rfl
    · rwa [List.zipWith_nil_right, List.append_nil]
  | succ n ih =>
    have hget : data.getD n 0 = data[n] := by
      rw [List.getD_eq_getElem?_getD, List.getElem?_eq_getElem (by omega), Option.getD_some]
    have htake : (data.take (n + 1)).reverse = data[n] :: (data.take n).reverse := by
      rw [List.take_succ_eq_append_getElem (by omega), List.reverse_append, List.reverse_singleton,
        List.singleton_append]
    rw [htake] at hlistens ⊢
    have hnow := hlistens []
    rw [List.zipWith_nil_right, List.append_nil] at hnow
    obtain ⟨b₁, ack, hstep, hack, hbyte⟩ := h.i2cWriteByte hnow data[n]
    have hrestListens : ∀ acks, Listens δ A base
        (es ++ [.byte data[n] ack] ++ List.zipWith .byte (data.take n).reverse acks) := by
      intro acks
      have hnext := hlistens (ack :: acks)
      rwa [List.zipWith_cons_cons, List.append_cons] at hnext
    obtain ⟨b', sda', acks, hwrite, hlen, hacks, hrest⟩ :=
      ih hrestListens hbyte (state && ack) (by omega)
    refine ⟨b', sda', ack :: acks, ?_, by rw [List.length_cons, hlen], ?_, ?_⟩
    · simp only [Device.writeData, hget, hstep, hwrite, List.all_cons, Bool.and_assoc, id]
    · exact List.forall_mem_cons.2 ⟨hack, hacks⟩
    · rwa [List.zipWith_cons_cons, List.append_cons]

/-! ## Bytes that are read -/

theorem ofBits_append_singleton (bs : List Bool) (v : Bool) :
    ofBits (bs ++ [v]) = 2 * ofBits bs + if v then 1 else 0 := by
  rw [ofBits, List.foldl_append]
  rfl

theorem shiftLeft_one (a : UInt8) : a <<< 1 = 2 * a := by
  refine forall_byte (P := fun a => a <<< 1 = 2 * a) ?_ a
  decide +kernel

/-- The bits are sampled as they are sent, the highest first, and make the
byte. -/
theorem Low.readBits {sent : List Bool} (hsends : Sends δ sent base es) (hsent : sent.length = 8)
    {k : ℕ} (hk : k + n = 8) (h : Low base b true (some (sent.take k)) es) :
    ∃ b', δ.readBits n (ofBits (sent.take k)) b = (b', ofBits sent) ∧
      Low base b' true (some sent) es := by
  induction n generalizing k b with
  | zero =>
    obtain rfl : k = 8 := hk
    rw [List.take_of_length_le (Nat.le_of_eq hsent)] at h ⊢
    exact ⟨b, rfl, h⟩
  | succ n ih =>
    have hlt : k < sent.length := by omega
    have hlen : (sent.take k).length = k := by
      rw [List.length_take]
      omega
    have hbit : δ.drive b = sent[k] := by
      rcases hsends.bit b true _ h with hbit | hfull
      · rw [hlen, List.getElem?_eq_getElem hlt] at hbit
        exact (Option.some.inj hbit).symm
      · omega
    have htake : sent.take k ++ [sent[k]] = sent.take (k + 1) :=
      (List.take_succ_eq_append_getElem hlt).symm
    have hrise := h.setHighSCL_bit (by omega) hbit
    rw [Bool.true_and, htake] at hrise
    have hchar : (if (δ.setHighSCL b).level.sda then ofBits (sent.take k) <<< 1 + 1
        else ofBits (sent.take k) <<< 1) = ofBits (sent.take (k + 1)) := by
      rw [hrise.level_eq, ← htake, ofBits_append_singleton, shiftLeft_one, Bool.true_and]
      split
      · rfl
      · exact (UInt8.add_zero _).symm
    obtain ⟨b', hread, hlow⟩ := ih (by omega) (hrise.setLowSCL (δ := δ))
    refine ⟨b', ?_, hlow⟩
    rw [Device.readBits]
    simp only [hchar]
    exact hread

/-- **`_i2c_read`** returns the byte that is sent, and answers it as it is
told to. -/
theorem Low.i2cReadByte (hsends : Sends δ (bitsOf 8 a) base es) (h : Low base b sda (some []) es)
    (ack : Bool) :
    ∃ b', δ.i2cReadByte ack b = (b', a) ∧ Low base b' (!ack) (some []) (es ++ [.byte a ack]) := by
  obtain ⟨b₁, hread, hbits⟩ := Low.readBits (n := 8) (k := 0) hsends (length_bitsOf 8 a) rfl
    ((h.setLowSCL (δ := δ)).setSDA (δ := δ) true)
  rw [List.take_zero, ofBits_bitsOf] at hread
  have hanswer : Low base (if ack then δ.setSDA b₁ false else b₁) (!ack)
      (some (bitsOf 8 a)) es := by
    cases ack with
    | true => exact hbits.setSDA false
    | false => exact hbits
  have hrise := hanswer.setHighSCL_ack (δ := δ) (length_bitsOf 8 a)
    (hsends.answer _ _ _ hanswer (length_bitsOf 8 a))
  rw [ofBits_bitsOf, Bool.and_true, Bool.not_not] at hrise
  refine ⟨_, ?_, hrise.setLowSCL (δ := δ)⟩
  have hzero : ofBits [] = 0 := rfl
  rw [hzero] at hread
  simp only [Device.i2cReadByte, hread]

end I2c

end SlipBoard
