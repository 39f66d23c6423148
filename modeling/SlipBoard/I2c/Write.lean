import SlipBoard.I2c.Lines
/-!
# Soft I2C — a write is a transaction

An attempt of `i2c_write` is a START, the bytes it writes and a STOP, as
long as the device listens (`attempt_of_start`), and a `Slave` always
does. Where the slave has answered the bus reset, the START that ends it
is not on the lines, and the next attempt's own takes its place.
-/

namespace SlipBoard

namespace I2c

open TwoWire

variable {δ : Device} {σ : Slave} {base b : Bus} {slave : Bool} {bits : Option (List Bool)}
  {es : List Event} {A : Bool → Prop} {hw reg : UInt8} {data : List UInt8} {n : ℕ}

/-- A slave that only acknowledges listens all the time, and any
acknowledgement of it will do. -/
theorem listens_device (σ : Slave) (base : Bus) (es : List Event) :
    Listens σ.device (fun _ => True) base es := by
  refine ⟨fun b sda bs h hlen => ?_, fun _ _ _ _ _ => trivial⟩
  show (!(b.ninth && σ.acks b.ticks)) = true
  rw [Bus.ninth, h.bits_eq, Option.any_some, decide_eq_false hlen]
  rfl

/-! ## The bus reset -/

/-- The clocks of the bus reset read ones, as SDA is let go on both sides. -/
theorem Low.clocks (σ : Slave) (h : Low base b true (some []) es) (hn : n ≤ 8) :
    Low base (σ.device.setLowSCL (σ.device.clocks n b)) true (some (List.replicate n true)) es := by
  induction n with
  | zero => exact h.setLowSCL
  | succ n ih =>
    have hlow := ih (by omega)
    -- the ninth clock is the answer, so these are eight at most
    have hrise := hlow.setHighSCL_free (listens_device σ base es)
      (by rw [List.length_replicate]; omega)
    rw [← List.replicate_succ'] at hrise
    exact hrise.setLowSCL

/-- `i2c_start` behind nine clocks. Where the slave holds the line there
is no START, and the lines end up the same. -/
theorem High.i2cStart_held (h : High base b true slave (some []) es) :
    ∃ es', Low base (δ.i2cStart b) true (some []) (es ++ es') := by
  cases slave with
  | true => exact ⟨_, h.i2cStart⟩
  | false =>
    -- the slave holds the line down through the rise and the fall
    have hup : High base (δ.setSDA (δ.setHighSCL b) true) true false (some []) es :=
      h.setHighSCL.setSDA_same rfl
    have hdown : High base (δ.setSDA (δ.setHighSCL (δ.setSDA (δ.setHighSCL b) true)) false)
        false false (some []) es := hup.setHighSCL.setSDA_same rfl
    refine ⟨[], ?_⟩
    rw [List.append_nil]
    exact hdown.setLowSCL.setSDA true

/-- **`I2C2_ResetBus`** leaves a group open with no bit in it, whether
the slave has answered its nine clocks or not. -/
theorem High.resetBus (h : High base b true true bits es) :
    ∃ es', Low base (σ.device.resetBus b) true (some []) (es ++ es') := by
  have hfirst : High base (σ.device.setSDA (σ.device.setHighSCL b) true) true true bits es :=
    h.setHighSCL.setSDA_same rfl
  have hstart := hfirst.i2cStart (δ := σ.device)
  have hninth := (hstart.clocks σ (Nat.le_refl 8)).setHighSCL_ack (δ := σ.device) rfl rfl
  obtain ⟨es', hend⟩ := hninth.i2cStart_held (δ := σ.device)
  rw [List.append_assoc, List.append_assoc] at hend
  exact ⟨_, hend⟩

/-! ## Attempts -/

/-- Where an attempt can begin: both lines let go, or a group open with
no bit in it, as the bus reset leaves it. -/
def Ready (b : Bus) : Prop := (∃ bits, High b b true true bits []) ∨ Low b b true (some []) []

theorem high_idle : High .idle .idle true true none [] := ⟨rfl, rfl, rfl, rfl, since_self _⟩

theorem ready_idle : Ready .idle := Or.inl ⟨none, high_idle⟩

theorem Ready.i2cStart (h : Ready b) : Low b (σ.device.i2cStart b) true (some []) [.start] := by
  rcases h with ⟨bits, h⟩ | h
  · exact h.i2cStart
  · exact h.i2cStart (listens_device σ b [])

/-- What an attempt spells, read behind all the levels before it: so a START
or a STOP is one by the rules of the bus, not by the call that makes it. -/
def spelt (attempt : List Level × List Level) : List Event :=
  (Decoder.idle.feed attempt.1).events attempt.2

/-- A transaction that writes `bytes`, with an answer to each. -/
def Writes (bytes : List UInt8) (acks : List Bool) : List Event :=
  .start :: List.zipWith .byte bytes acks ++ [.stop]

/-- **An attempt** behind a START is one transaction, and lets the lines go.
It succeeds exactly where every byte is acknowledged. -/
theorem attempt_of_start (hstart : Low b (δ.i2cStart b) true (some []) [.start])
    (hlistens : ∀ acks, Listens δ A b
      (.start :: List.zipWith .byte (hw :: reg :: data.reverse) acks)) :
    ∃ acks own, acks.length = data.length + 2 ∧ (∀ ack ∈ acks, A ack) ∧
      (δ.attempt hw reg data b).2 = acks.all id ∧
      (δ.attempt hw reg data b).1.levels = b.levels ++ own ∧
      (δ.attempt hw reg data b).1.attempts = b.attempts ++ [(b.levels, own)] ∧
      spelt (b.levels, own) = Writes (hw :: reg :: data.reverse) acks ∧
      High (δ.attempt hw reg data b).1 (δ.attempt hw reg data b).1 true true none [] := by
  obtain ⟨b₁, ackHw, hwriteHw, hackHw, hbyteHw⟩ := hstart.i2cWriteByte (hlistens []) hw
  obtain ⟨b₂, ackReg, hwriteReg, hackReg, hbyteReg⟩ := hbyteHw.i2cWriteByte (hlistens [ackHw]) reg
  have hdataListens : ∀ acks, Listens δ A b ([.start] ++ [.byte hw ackHw] ++ [.byte reg ackReg] ++
      List.zipWith .byte (data.take data.length).reverse acks) := by
    intro acks
    rw [List.take_length]
    exact hlistens (ackHw :: ackReg :: acks)
  obtain ⟨b₃, sda', acks, hwrite, hlen, hacks, hdata⟩ :=
    hbyteReg.writeData hdataListens (true && ackHw && ackReg) (Nat.le_refl data.length)
  have hstop := hdata.i2cStop (hdataListens acks)
  obtain ⟨hattempts, own, hlevels, hspelt⟩ := hstop.since
  have hattempt : δ.attempt hw reg data b =
      ({ δ.i2cStop b₃ with attempts := b.attempts ++ [(b.levels, own)] },
        true && ackHw && ackReg && acks.all id) := by
    simp only [Device.attempt, UInt8.or_zero, hwriteHw, hwriteReg, hwrite, hattempts, hlevels,
      List.drop_left]
  refine ⟨ackHw :: ackReg :: acks, own, by rw [List.length_cons, List.length_cons, hlen],
    ?_, ?_, ?_, ?_, ?_, ?_⟩
  · exact List.forall_mem_cons.2 ⟨hackHw, List.forall_mem_cons.2 ⟨hackReg, hacks⟩⟩
  · rw [hattempt, List.all_cons, List.all_cons, Bool.true_and, Bool.and_assoc]
    rfl
  · rw [hattempt]
    exact hlevels
  · rw [hattempt]
  · refine hspelt.trans ?_
    rw [List.take_length]
    simp [Writes]
  · rw [hattempt]
    exact ⟨hstop.scl, hstop.sda, hstop.slave, hstop.seen, since_self _⟩

/-- Every byte of a transaction is acknowledged, so that no attempt has to
be repeated. -/
def Acked (es : List Event) : Prop := ∀ value ack, .byte value ack ∈ es → ack = true

theorem acked_zipWith_iff {bytes : List UInt8} {acks : List Bool}
    (hlen : acks.length = bytes.length) :
    Acked (List.zipWith .byte bytes acks) ↔ acks.all id = true := by
  induction bytes generalizing acks with
  | nil =>
    rw [List.length_nil, List.length_eq_zero_iff] at hlen
    subst hlen
    simp [Acked]
  | cons a bytes ih =>
    cases acks with
    | nil => cases hlen
    | cons ack acks =>
      rw [List.length_cons, List.length_cons, Nat.add_right_cancel_iff] at hlen
      rw [List.all_cons, Bool.and_eq_true, ← ih hlen, List.zipWith_cons_cons]
      constructor
      · exact fun h => ⟨h a ack List.mem_cons_self,
          fun value ack' hmem => h value ack' (List.mem_cons_of_mem _ hmem)⟩
      · rintro ⟨hack, hrest⟩ value ack' hmem
        rcases List.mem_cons.1 hmem with heq | hmem
        · rw [(Event.byte.inj heq).2]
          exact hack
        · exact hrest value ack' hmem

theorem acked_writes_iff {bytes : List UInt8} {acks : List Bool}
    (hlen : acks.length = bytes.length) :
    Acked (Writes bytes acks) ↔ acks.all id = true := by
  rw [← acked_zipWith_iff hlen]
  constructor
  · exact fun h value ack hmem => h value ack (by simp [Writes, hmem])
  · exact fun h value ack hmem => h value ack (by simpa [Writes] using hmem)

/-- The bus reset makes the bus ready for the next attempt. -/
theorem High.ready_resetBus (h : High b b true true bits []) :
    Ready (σ.device.resetBus b) ∧ (σ.device.resetBus b).attempts = b.attempts := by
  obtain ⟨es', hreset⟩ := h.resetBus (σ := σ)
  exact ⟨Or.inr ⟨hreset.scl, hreset.sda, hreset.seen, since_self _⟩, hreset.since.1⟩

/-- The attempts that are left: they end with the first that is
acknowledged. -/
theorem Ready.writeLoop (h : Ready b) (hw reg : UInt8) (data : List UInt8) (n : ℕ) :
    ∃ as, (σ.device.writeLoop hw reg data n (b, false)).1.attempts = b.attempts ++ as ∧
      as.length ≤ n ∧ (n ≠ 0 → as ≠ []) ∧
      (∀ a ∈ as, ∃ acks, acks.length = data.length + 2 ∧
        spelt a = Writes (hw :: reg :: data.reverse) acks) ∧
      ((σ.device.writeLoop hw reg data n (b, false)).2 = true ↔ ∃ a ∈ as, Acked (spelt a)) ∧
      Ready (σ.device.writeLoop hw reg data n (b, false)).1 := by
  induction n generalizing b with
  | zero =>
    refine ⟨[], (List.append_nil _).symm, Nat.le_refl 0, fun hne => absurd rfl hne, by simp, ?_, h⟩
    simp [Device.writeLoop]
  | succ n ih =>
    obtain ⟨acks, own, hlen, -, hstate, -, hattempts, hspelt, hhigh⟩ :=
      attempt_of_start (h.i2cStart (σ := σ)) fun acks =>
        listens_device σ b (.start :: List.zipWith .byte (hw :: reg :: data.reverse) acks)
    have hacked : Acked (spelt (b.levels, own)) ↔ acks.all id = true := by
      rw [hspelt]
      exact acked_writes_iff (by simpa using hlen)
    cases hall : acks.all id with
    | true =>
      have hloop : σ.device.writeLoop hw reg data (n + 1) (b, false) =
          σ.device.attempt hw reg data b := by
        simp [Device.writeLoop, hstate, hall, Prod.ext_iff]
      rw [hloop]
      refine ⟨[(b.levels, own)], hattempts, by simp, fun _ => by simp, ?_, ?_, Or.inl ⟨none, hhigh⟩⟩
      · intro a ha
        rw [List.mem_singleton.1 ha]
        exact ⟨acks, hlen, hspelt⟩
      · rw [hstate]
        exact iff_of_true hall ⟨_, List.mem_singleton_self _, hacked.2 hall⟩
    | false =>
      -- the levels of the reset lie between the attempts, in neither
      obtain ⟨hready, hreset⟩ := hhigh.ready_resetBus (σ := σ)
      obtain ⟨as, hlog, hle, -, hwrites, hiff, hend⟩ := ih hready
      have hloop : σ.device.writeLoop hw reg data (n + 1) (b, false) =
          σ.device.writeLoop hw reg data n
            (σ.device.resetBus (σ.device.attempt hw reg data b).1, false) := by
        simp [Device.writeLoop, hstate, hall]
      rw [hloop]
      refine ⟨(b.levels, own) :: as, ?_, by rw [List.length_cons]; omega, fun _ => by simp, ?_, ?_,
        hend⟩
      · rw [hlog, hreset, hattempts, List.append_assoc, List.singleton_append]
      · intro a ha
        rcases List.mem_cons.1 ha with rfl | ha
        · exact ⟨acks, hlen, hspelt⟩
        · exact hwrites a ha
      · rw [hiff]
        constructor
        · rintro ⟨a, ha, hack⟩
          exact ⟨a, List.mem_cons_of_mem _ ha, hack⟩
        · rintro ⟨a, ha, hack⟩
          rcases List.mem_cons.1 ha with rfl | ha
          · rw [hacked, hall] at hack
            cases hack
          · exact ⟨a, ha, hack⟩

/-- **`i2c_write` writes transactions.** On a bus that is ready, for
every slave, address, register and array of data, it makes one to
`max_repeat` attempts; what each spells is START, the address, the
register, the data from its last byte to its first, and STOP; and it
returns true exactly when in one of them every byte is acknowledged. The
bus is ready again afterwards. -/
theorem i2cWrite_transactions (σ : Slave) (hw reg : UInt8) (data : List UInt8) (h : Ready b) :
    ∃ as, (σ.device.i2cWrite hw reg data b).1.attempts = b.attempts ++ as ∧
      (as ≠ [] ∧ as.length ≤ maxRepeat) ∧
      (∀ a ∈ as, ∃ acks, acks.length = data.length + 2 ∧
        spelt a = Writes (hw :: reg :: data.reverse) acks) ∧
      ((σ.device.i2cWrite hw reg data b).2 = true ↔ ∃ a ∈ as, Acked (spelt a)) ∧
      Ready (σ.device.i2cWrite hw reg data b).1 := by
  obtain ⟨as, hlog, hle, hne, hwrites, hiff, hend⟩ :=
    h.writeLoop (σ := σ) hw reg data maxRepeat
  exact ⟨as, hlog, ⟨hne (by decide), hle⟩, hwrites, hiff, hend⟩

/-- A slave that moves the line once while the clock is low, and answers
from tick 90 on. -/
def lateSlave : Slave := ⟨fun n => decide (90 ≤ n), fun n => if n = 13 then [false, true] else []⟩

/-- Its first attempt fails, and a later one is acknowledged. -/
theorem i2cWrite_transactions_late :
    ∃ as, (lateSlave.device.i2cWrite 0x40 0x12 [7, 200] .idle).1.attempts = as ∧
      ∃ a ∈ as, Acked (spelt a) ∧ ∃ acks, spelt a = Writes [0x40, 0x12, 200, 7] acks := by
  have htrue : (lateSlave.device.i2cWrite 0x40 0x12 [7, 200] .idle).2 = true := by
    decide +kernel
  obtain ⟨as, hlog, -, hwrites, hiff, -⟩ := i2cWrite_transactions lateSlave 0x40 0x12 [7, 200] ready_idle
  obtain ⟨a, ha, hacked⟩ := hiff.1 htrue
  obtain ⟨acks, -, hspelt⟩ := hwrites a ha
  exact ⟨as, hlog, a, ha, hacked, acks, hspelt⟩

end I2c

end SlipBoard
