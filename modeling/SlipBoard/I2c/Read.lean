import SlipBoard.I2c.Write
/-!
# Soft I2C — a register read returns what was written

A `Chip` is what it has been told by the events on the bus, so what it
does when the clock rises follows from them (`drive_eq`). It keeps the
bytes of a write in the order they cross the bus and sends them in the
same order, and `i2c_write` and `i2c_read` both go through the array from
its end, so what is read is what was written (`i2cRead_i2cWrite`).
-/

namespace SlipBoard

namespace I2c

open TwoWire

variable {c s : Chip} {moves : ℕ → List Bool} {base b : Bus} {sda : Bool}
  {bits : Option (List Bool)} {bs : List Bool} {es : List Event} {hw reg a : UInt8}
  {bytes rest d : List UInt8} {acks : List Bool}
  {e : ℕ → UInt8} {size i : UInt32} {n : ℕ}

/-! ## The chip on the bus -/

theorem after_append (c : Chip) (es es' : List Event) :
    c.after (es ++ es') = (c.after es).after es' :=
  List.foldl_append

theorem after_concat (c : Chip) (es : List Event) (e : Event) :
    c.after (es ++ [e]) = (c.after es).step e :=
  after_append c es [e]

/-- What has been spelt since `base` is what the chip has been told. -/
theorem now_eq (c : Chip) (h : Since base b es) : c.now b = (c.now base).after es := by
  obtain ⟨-, ls, hls, hes⟩ := h
  rw [Chip.now, hls, Decoder.events_append, after_append, ← hes]
  rfl

theorem drive_eq (h : Low base b sda (some bs) es) :
    (c.device moves).drive b = ((c.now base).after es).answer bs := by
  show b.seen.bits.all (c.now b).answer = _
  rw [h.bits_eq, now_eq c h.since]
  rfl

/-- A chip that does not send lets the line go, and so listens to the master. -/
theorem listens_of_not_send (hmode : ((c.now base).after es).mode ≠ .send) :
    Listens (c.device moves) (fun _ => True) base es := by
  refine ⟨fun b sda bs h hlen => ?_, fun _ _ _ _ _ => trivial⟩
  rw [drive_eq h, Chip.answer]
  revert hmode
  cases ((c.now base).after es).mode <;> simp [hlen]

/-- What takes a byte for an address, a register or a value. -/
def Mode.Receives : Mode → Prop
  | .address | .register | .store => True
  | .off | .send => False

/-- A chip that receives an address, a register or a value acknowledges it. -/
theorem listens_of_receives (hmode : ((c.now base).after es).mode.Receives) :
    Listens (c.device moves) (· = true) base es := by
  refine ⟨fun b sda bs h hlen => ?_, fun b sda bs h hlen => ?_⟩
  · rw [drive_eq h, Chip.answer]
    revert hmode
    cases ((c.now base).after es).mode <;> simp [hlen, Mode.Receives]
  · rw [drive_eq h, Chip.answer]
    revert hmode
    cases ((c.now base).after es).mode <;> simp [hlen, Mode.Receives]

/-- Behind a START the chip waits for an address, whatever it was doing. -/
theorem receives_of_start (s : Chip) (es : List Event) :
    (s.after (es ++ [.start])).mode.Receives := by
  rw [after_concat]
  exact trivial

/-! ## What it stores -/

/-- Behind an address with an even byte and a register. -/
theorem after_register (hmode : s.mode = .address) (heven : hw &&& 1 = 0) (ackHw ackReg : Bool) :
    s.after [.byte hw ackHw, .byte reg ackReg] =
      { s with mode := .store, register := reg, position := 0 } := by
  simp [Chip.after, Chip.step, hmode, heven]

/-- **Bytes that are stored** follow each other, and leave what is in
front of them. -/
theorem after_store (hmode : s.mode = .store) (hlen : acks.length = bytes.length) :
    (s.after (List.zipWith .byte bytes acks)).mode = .store ∧
      (∀ j < s.position, (s.after (List.zipWith .byte bytes acks)).memory s.register j =
        s.memory s.register j) ∧
      ∀ k v, bytes[k]? = some v →
        (s.after (List.zipWith .byte bytes acks)).memory s.register (s.position + k) = v := by
  induction bytes generalizing s acks with
  | nil => exact ⟨hmode, fun j hj => rfl, fun k v hk => by simp at hk⟩
  | cons a bytes ih =>
    obtain ⟨ack, acks, rfl⟩ : ∃ ack acks', acks = ack :: acks' := by
      cases acks with
      | nil => cases hlen
      | cons ack acks => exact ⟨ack, acks, rfl⟩
    have hstep : s.step (.byte a ack) = { s with
        memory := Function.update s.memory s.register
          (Function.update (s.memory s.register) s.position a)
        position := s.position + 1 } := by
      rw [Chip.step, hmode]
    have hmode₁ : (s.step (.byte a ack)).mode = .store := by
      rw [hstep]
      exact hmode
    obtain ⟨hmode', hfront, hbytes⟩ := ih hmode₁ (Nat.succ.inj hlen)
    rw [List.zipWith_cons_cons, Chip.after, List.foldl_cons]
    rw [hstep] at hmode' hfront hbytes ⊢
    refine ⟨hmode', fun j hj => ?_, fun k v hk => ?_⟩
    · refine (hfront j (Nat.lt_succ_of_lt hj)).trans ?_
      simp [Function.update_of_ne (Nat.ne_of_lt hj)]
    · rcases k with _ | k
      · obtain rfl : a = v := by simpa using hk
        refine (hfront s.position (Nat.lt_succ_self _)).trans ?_
        simp
      · have hnext := hbytes k v (by simpa using hk)
        rwa [Nat.add_assoc, Nat.add_comm 1 k] at hnext

theorem mode_after_writes (heven : hw &&& 1 = 0) (s : Chip) (reg : UInt8) (bytes : List UInt8)
    (acks : List Bool) :
    (s.after (.start :: List.zipWith .byte (hw :: reg :: bytes) acks)).mode.Receives := by
  match acks with
  | [] => exact trivial
  | [ackHw] =>
    have hregister : (s.after [.start, .byte hw ackHw]).mode = .register := by
      simp [Chip.after, Chip.step, heven]
    show (s.after [.start, .byte hw ackHw]).mode.Receives
    rw [hregister]
    exact trivial
  | ackHw :: ackReg :: acks =>
    have hsplit : s.after
          (.start :: List.zipWith .byte (hw :: reg :: bytes) (ackHw :: ackReg :: acks)) =
        ((s.step .start).after [.byte hw ackHw, .byte reg ackReg]).after
          (List.zipWith .byte bytes acks) := rfl
    have hstored : ∀ (bytes : List UInt8) (acks : List Bool) (s : Chip), s.mode = .store →
        (s.after (List.zipWith .byte bytes acks)).mode = .store := by
      intro bytes acks s hmode
      rw [List.zipWith_eq_zipWith_take_min]
      exact (after_store hmode (by simp)).1
    rw [hsplit, hstored bytes acks _ (by rw [after_register rfl heven])]
    exact trivial

/-- **`i2c_write` leaves its data in the register**, from the last byte to
the first, as they cross the bus, and needs one attempt. -/
theorem i2cWrite_holds (c : Chip) (moves : ℕ → List Bool) (h : High b b true true bits [])
    (heven : hw &&& 1 = 0) (reg : UInt8) (d : List UInt8) :
    ∃ b₁, (c.device moves).i2cWrite hw reg d b = (b₁, true) ∧ High b₁ b₁ true true none [] ∧
      ∀ k v, d.reverse[k]? = some v → (c.now b₁).memory reg k = v := by
  have hlistens : ∀ acks, Listens (c.device moves) (· = true) b
      (.start :: List.zipWith .byte (hw :: reg :: d.reverse) acks) :=
    fun acks => listens_of_receives (mode_after_writes heven _ reg d.reverse acks)
  obtain ⟨acks, own, hlen, hacks, hstate, hlevels, -, hspelt, hhigh⟩ :=
    attempt_of_start (h.i2cStart (δ := c.device moves)) hlistens
  have hall : acks.all id = true := List.all_eq_true.2 hacks
  have hwrite : (c.device moves).i2cWrite hw reg d b = ((c.device moves).attempt hw reg d b) := by
    rw [Device.i2cWrite, Device.writeLoop]
    simp [hstate, hall, Prod.ext_iff]
  refine ⟨((c.device moves).attempt hw reg d b).1, ?_, hhigh, fun k v hk => ?_⟩
  · rw [hwrite]
    exact Prod.ext rfl (hstate.trans hall)
  · obtain ⟨ackHw, acks, rfl⟩ := List.exists_cons_of_length_eq_add_one hlen
    obtain ⟨ackReg, acks, rfl⟩ := List.exists_cons_of_length_eq_add_one (Nat.succ.inj hlen)
    have hsplit : c.now ((c.device moves).attempt hw reg d b).1 =
        ((((c.now b).step .start).after [.byte hw ackHw, .byte reg ackReg]).after
          (List.zipWith .byte d.reverse acks)).after [.stop] := by
      rw [Chip.now, hlevels, Decoder.events_append, after_append]
      show (c.now b).after (spelt (b.levels, own)) = _
      rw [hspelt, ← after_append]
      rfl
    rw [hsplit, after_register rfl heven]
    have hstored := (after_store (s := { (c.now b).step .start with
      mode := .store, register := reg, position := 0 }) rfl (by simpa using hlen)).2.2 k v hk
    rwa [Nat.zero_add] at hstored

/-! ## What it sends -/

/-- The chip sends these bytes next: it is in the mode of sending, and its
memory holds them from its position on. -/
structure Sending (s : Chip) (bytes : List UInt8) : Prop where
  mode : s.mode = .send
  holds : ∀ k v, bytes[k]? = some v → s.memory s.register (s.position + k) = v

theorem bitsOf_eq (a : UInt8) :
    bitsOf 8 a = (List.range 8).map fun k => a.toNat.testBit (7 - k) := by
  refine forall_byte (P := fun a => bitsOf 8 a =
    (List.range 8).map fun k => a.toNat.testBit (7 - k)) ?_ a
  decide +kernel

theorem Sending.sends (h : Sending ((c.now base).after es) (a :: bytes)) (moves : ℕ → List Bool) :
    Sends (c.device moves) (bitsOf 8 a) base es := by
  have hbyte : ((c.now base).after es).memory ((c.now base).after es).register
      ((c.now base).after es).position = a := h.holds 0 a rfl
  refine ⟨fun b sda bs hlow => ?_, fun b sda bs hlow hlen => ?_⟩
  · by_cases hlt : bs.length < 8
    · have hne : bs.length ≠ 8 := by omega
      refine Or.inl ?_
      rw [drive_eq hlow, Chip.answer, h.mode, bitsOf_eq, List.getElem?_map,
        List.getElem?_range hlt, Option.map_some]
      simp [hbyte, hne]
    · exact Or.inr (by omega)
  · rw [drive_eq hlow, Chip.answer, h.mode]
    simp [hlen]

/-- Behind an acknowledgement it goes on with the next byte. -/
theorem Sending.step (h : Sending s (a :: bytes)) (v : UInt8) :
    Sending (s.step (.byte v true)) bytes := by
  have hstep : s.step (.byte v true) = { s with position := s.position + 1 } := by
    rw [Chip.step, h.mode]
    rfl
  rw [hstep]
  refine ⟨h.mode, fun k v hk => ?_⟩
  have hnext := h.holds (k + 1) v (by simpa using hk)
  rwa [Nat.add_comm k, ← Nat.add_assoc] at hnext

/-- Without one it stops, and lets SDA go. -/
theorem Sending.step_nack (h : Sending s bytes) (v : UInt8) :
    (s.step (.byte v false)).mode = .off := by
  rw [Chip.step, h.mode]
  rfl

/-- What is in the array once the offsets from `m` on have been read. -/
def filled (d : List UInt8) (e : ℕ → UInt8) (m : ℕ) : ℕ → UInt8 :=
  fun k => if m ≤ k then d.getD k (e k) else e k

theorem filled_length (d : List UInt8) (e : ℕ → UInt8) : filled d e d.length = e := by
  funext k
  unfold filled
  split
  · rename_i hle
    rw [List.getD_eq_getElem?_getD, List.getElem?_eq_none hle, Option.getD_none]
  · rfl

theorem update_filled (e : ℕ → UInt8) {m : ℕ} {v : UInt8} (hm : d[m]? = some v) :
    Function.update (filled d e (m + 1)) m v = filled d e m := by
  funext k
  by_cases hk : k = m
  · subst hk
    rw [Function.update_self, filled, if_pos (Nat.le_refl k), List.getD_eq_getElem?_getD, hm,
      Option.getD_some]
  · rw [Function.update_of_ne hk, filled, filled]
    by_cases hle : m ≤ k
    · rw [if_pos hle, if_pos (by omega)]
    · rw [if_neg hle, if_neg (by omega)]

theorem toNat_sub_sub {m : ℕ} (hi : i.toNat + (m + 1) = size.toNat) : (size - i - 1).toNat = m := by
  have hle : i ≤ size := UInt32.le_iff_toNat_le.2 (by omega)
  have hdiff : (size - i).toNat = m + 1 := by
    rw [UInt32.toNat_sub_of_le _ _ hle]
    omega
  rw [UInt32.toNat_sub_of_le _ _ (UInt32.le_iff_toNat_le.2 (by rw [hdiff]; exact Nat.succ_pos m)),
    hdiff]
  rfl

theorem toNat_add_one {m : ℕ} (hi : i.toNat + (m + 1) = size.toNat) :
    (i + 1).toNat + m = size.toNat := by
  have hlt := size.toNat_lt
  rw [UInt32.toNat_add, Nat.mod_eq_of_lt (by rw [UInt32.toNat_one]; omega), UInt32.toNat_one]
  omega

/-- **The loop of `i2c_read`** over the bytes behind the first, the last
byte first. -/
theorem Low.readData (moves : ℕ → List Bool) (e : ℕ → UInt8) (hn : n ≤ rest.length)
    (hi : i.toNat + (n + 1) = size.toNat) (h : Low base b sda (some []) es)
    (hsending : Sending ((c.now base).after es) ((rest.take n).reverse ++ [a])) :
    ∃ b' sda', (c.device moves).readData size n i (b, filled (a :: rest) e (n + 1)) =
        (b', filled (a :: rest) e 1) ∧
      Low base b' sda' (some []) (es ++ (rest.take n).reverse.map fun v => .byte v true) ∧
      Sending ((c.now base).after (es ++ (rest.take n).reverse.map fun v => .byte v true)) [a] := by
  induction n generalizing b sda es i with
  | zero =>
    rw [List.take_zero, List.reverse_nil, List.map_nil, List.append_nil]
    exact ⟨b, sda, rfl, h, hsending⟩
  | succ n ih =>
    have hlt : n < rest.length := hn
    have htake : (rest.take (n + 1)).reverse = rest[n] :: (rest.take n).reverse := by
      rw [List.take_succ_eq_append_getElem hlt, List.reverse_append, List.reverse_singleton,
        List.singleton_append]
    rw [htake, List.cons_append] at hsending
    obtain ⟨b₁, hread, hlow⟩ := h.i2cReadByte (hsending.sends moves) true
    have hnext : Sending ((c.now base).after (es ++ [.byte rest[n] true]))
        ((rest.take n).reverse ++ [a]) := by
      rw [after_append]
      exact hsending.step rest[n]
    have hcell : (a :: rest)[n + 1]? = some rest[n] := by
      rw [List.getElem?_cons_succ, List.getElem?_eq_getElem hlt]
    obtain ⟨b', sda', hloop, hend, hlast⟩ := ih (Nat.le_of_lt hlt) (toNat_add_one hi) hlow hnext
    refine ⟨b', sda', ?_, ?_, ?_⟩
    · rw [Device.readData, hread]
      simp only [toNat_sub_sub hi, update_filled e hcell]
      exact hloop
    · rwa [htake, List.map_cons, List.append_cons]
    · rwa [htake, List.map_cons, List.append_cons]

/-- A transaction that reads `bytes` from a register: every byte is
acknowledged but the last. -/
def Reads (hw reg : UInt8) (bytes : List UInt8) : List Event :=
  [.start, .byte hw true, .byte reg true, .start, .byte (hw ||| 1) true] ++
    List.zipWith .byte bytes (List.replicate (bytes.length - 1) true ++ [false]) ++ [.stop]

theorem zipWith_byte_append (bytes : List UInt8) (a : UInt8) :
    List.zipWith Event.byte (bytes ++ [a])
        (List.replicate ((bytes ++ [a]).length - 1) true ++ [false]) =
      (bytes.map fun v => .byte v true) ++ [.byte a false] := by
  rw [List.length_append, List.length_singleton, Nat.add_sub_cancel,
    List.zipWith_append (by rw [List.length_replicate])]
  congr 1
  induction bytes with
  | nil => rfl
  | cons v bytes ih =>
    rw [List.length_cons, List.replicate_succ, List.zipWith_cons_cons, ih, List.map_cons]

/-! ## A read -/

/-- What `i2c_read` spells in front of the data: the address and the
register, then a repeated start and the address for reading. -/
def selects (hw reg : UInt8) : List Event :=
  [.start, .byte hw true, .byte reg true, .start, .byte (hw ||| 1) true]

/-- The chip has been told the register, and that it is to be read. -/
theorem after_selects (heven : hw &&& 1 = 0) (s : Chip) (reg : UInt8) :
    s.after (selects hw reg) = { s with mode := .send, register := reg, position := 0 } := by
  have hodd : (hw ||| 1) &&& 1 ≠ 0 := by
    refine forall_byte (P := fun a => (a ||| 1) &&& 1 ≠ 0) ?_ hw
    decide +kernel
  simp [selects, Chip.after, Chip.step, heven, hodd]

/-- The three bytes in front of the data are acknowledged. -/
theorem High.selects (c : Chip) (moves : ℕ → List Bool) (h : High b b true true bits [])
    (heven : hw &&& 1 = 0) (reg : UInt8) :
    ∃ b₁ b₂ b₃, (c.device moves).i2cWriteByte hw ((c.device moves).i2cStart b) = (b₁, true) ∧
      (c.device moves).i2cWriteByte reg b₁ = (b₂, true) ∧
      (c.device moves).i2cWriteByte (hw ||| 1) ((c.device moves).i2cStart b₂) = (b₃, true) ∧
      Low b b₃ true (some []) (selects hw reg) := by
  have hstart : Low b ((c.device moves).i2cStart b) true (some []) [.start] := h.i2cStart
  have haddress : Listens (c.device moves) (· = true) b [.start] :=
    listens_of_receives (receives_of_start _ [])
  obtain ⟨b₁, ackHw, hwriteHw, rfl, hlowHw⟩ := hstart.i2cWriteByte haddress hw
  have hregister : Listens (c.device moves) (· = true) b ([.start] ++ [.byte hw true]) :=
    listens_of_receives (mode_after_writes heven _ reg [] [true])
  obtain ⟨b₂, ackReg, hwriteReg, rfl, hlowReg⟩ := hlowHw.i2cWriteByte hregister reg
  -- the chip waits for a value, and is sent another START
  have hstore : Listens (c.device moves) (· = true) b
      ([.start] ++ [.byte hw true] ++ [.byte reg true]) :=
    listens_of_receives (mode_after_writes heven _ reg [] [true, true])
  have hagain := hlowReg.i2cStart hstore
  have haddress' : Listens (c.device moves) (· = true) b
      ([.start] ++ [.byte hw true] ++ [.byte reg true] ++ [.start]) :=
    listens_of_receives (receives_of_start _ _)
  obtain ⟨b₃, ackRead, hwriteRead, rfl, hlowRead⟩ := hagain.i2cWriteByte haddress' (hw ||| 1)
  exact ⟨b₁, b₂, b₃, hwriteHw, hwriteReg, hwriteRead, hlowRead⟩

/-- **`i2c_read` returns what the register holds**, the byte that is sent
first at the end of the array, and spells one transaction. -/
theorem i2cRead_of_holds (c : Chip) (moves : ℕ → List Bool) (h : High b b true true bits [])
    (heven : hw &&& 1 = 0) (hsize : (a :: rest).length = size.toNat)
    (hholds : ∀ k v, (a :: rest).reverse[k]? = some v → (c.now b).memory reg k = v)
    (e : ℕ → UInt8) :
    ∃ b₂ own, (c.device moves).i2cRead hw reg size e b =
        (b₂, fun k => (a :: rest).getD k (e k), true) ∧
      b₂.attempts = b.attempts ++ [(b.levels, own)] ∧
      spelt (b.levels, own) = Reads hw reg (a :: rest).reverse := by
  obtain ⟨b₁, b₂, b₃, hwriteHw, hwriteReg, hwriteRead, hlow⟩ := h.selects c moves heven reg
  have hsending : Sending ((c.now b).after (selects hw reg))
      ((rest.take rest.length).reverse ++ [a]) := by
    rw [after_selects heven]
    refine ⟨rfl, fun k v hk => ?_⟩
    rw [List.take_length, ← List.reverse_cons] at hk
    show (c.now b).memory reg (0 + k) = v
    rw [Nat.zero_add]
    exact hholds k v hk
  have hfirst : (0 : UInt32).toNat + (rest.length + 1) = size.toNat := by
    rw [← hsize, List.length_cons, UInt32.toNat_zero, Nat.zero_add]
  obtain ⟨b₄, sda, hloop, hlowData, hlast⟩ :=
    hlow.readData moves e (Nat.le_refl rest.length) hfirst hsending
  obtain ⟨b₅, hreadLast, hlowLast⟩ := hlowData.i2cReadByte (hlast.sends moves) false
  -- the last byte is not acknowledged, and the chip is off for the STOP
  have hoff : Listens (c.device moves) (fun _ => True) b (selects hw reg ++
      (rest.take rest.length).reverse.map (fun v => Event.byte v true) ++ [Event.byte a false]) := by
    refine listens_of_not_send ?_
    rw [after_concat, hlast.step_nack]
    exact Mode.noConfusion
  have hstop := hlowLast.i2cStop hoff
  obtain ⟨hattempts, own, hlevels, hspelt⟩ := hstop.since
  have hleft : (size - 1).toNat = rest.length := by
    have hsub : (size - 0 - 1).toNat = rest.length := toNat_sub_sub hfirst
    rwa [UInt32.sub_zero] at hsub
  have hfilled : filled (a :: rest) e (rest.length + 1) = e := filled_length (a :: rest) e
  rw [hfilled] at hloop
  have hcell : (a :: rest)[0]? = some a := rfl
  have hattempt : (c.device moves).readAttempt hw reg size e b =
      ({ (c.device moves).i2cStop b₅ with attempts := b.attempts ++ [(b.levels, own)] },
        filled (a :: rest) e 0, true) := by
    simp only [Device.readAttempt, UInt8.or_zero, hwriteHw, hwriteReg, hwriteRead, hleft, hloop,
      hreadLast, update_filled e hcell, hattempts, hlevels, List.drop_left, Bool.and_true]
  have hread : (c.device moves).i2cRead hw reg size e b =
      (c.device moves).readAttempt hw reg size e b := by
    rw [Device.i2cRead, Device.readLoop]
    simp [hattempt]
  have hreads : spelt (b.levels, own) = Reads hw reg (a :: rest).reverse := by
    show b.seen.events own = _
    rw [hspelt, Reads, List.reverse_cons, zipWith_byte_append, List.take_length]
    simp [selects]
  rw [hread, hattempt]
  exact ⟨_, own, rfl, rfl, hreads⟩

/-- **An I2C register reads what was written.** On lines that are let go,
for every chip, every even address, register and array, `i2c_write` and
then `i2c_read` return true, and leave in the array of the read what was
written, and nothing else changed; and the read spells one transaction. -/
theorem i2cRead_i2cWrite (c : Chip) (moves : ℕ → List Bool) (h : High b b true true bits [])
    (heven : hw % 2 = 0) (reg : UInt8) (hpos : 1 ≤ size) (hsize : d.length = size.toNat)
    (e : ℕ → UInt8) :
    ∃ b₁ b₂ own, (c.device moves).i2cWrite hw reg d b = (b₁, true) ∧
      (c.device moves).i2cRead hw reg size e b₁ = (b₂, fun k => d.getD k (e k), true) ∧
      b₂.attempts = b₁.attempts ++ [(b₁.levels, own)] ∧
      spelt (b₁.levels, own) = Reads hw reg d.reverse := by
  have hbit : hw &&& 1 = 0 := by
    refine forall_byte (P := fun a => a % 2 = 0 → a &&& 1 = 0) ?_ hw heven
    decide +kernel
  obtain ⟨a, rest, rfl⟩ : ∃ a rest, d = a :: rest := by
    cases d with
    | nil =>
      have hle := UInt32.le_iff_toNat_le.1 hpos
      rw [← hsize, UInt32.toNat_one, List.length_nil] at hle
      exact absurd hle (Nat.not_succ_le_zero 0)
    | cons a rest => exact ⟨a, rest, rfl⟩
  obtain ⟨b₁, hwrite, hhigh, hholds⟩ := i2cWrite_holds c moves h hbit reg (a :: rest)
  obtain ⟨b₂, own, hread, hattempts, hspelt⟩ := i2cRead_of_holds c moves hhigh hbit hsize hholds e
  exact ⟨b₁, b₂, own, hwrite, hread, hattempts, hspelt⟩

/-- A chip that holds zeroes, and moves the line once while the clock is
low. -/
def zeroChip : Device := Chip.device ⟨fun _ _ => 0, .off, 0, 0⟩ fun n => if n = 13 then [false] else []

theorem i2cRead_i2cWrite_two :
    ∃ b₁ b₂ own, zeroChip.i2cWrite 0x40 0x12 [7, 200] .idle = (b₁, true) ∧
      zeroChip.i2cRead 0x40 0x12 2 (fun _ => 0xFF) b₁ =
        (b₂, fun k => [7, 200].getD k 0xFF, true) ∧
      b₂.attempts = b₁.attempts ++ [(b₁.levels, own)] ∧
      spelt (b₁.levels, own) = Reads 0x40 0x12 [200, 7] :=
  i2cRead_i2cWrite _ _ high_idle rfl 0x12 (by decide) rfl fun _ => 0xFF

end I2c

end SlipBoard
