import SlipBoard.Common.Transition
import SlipBoard.Usart.Model.Ring
/-!
# USART6 — the ring under interrupts

`Accounts` is the invariant: the bytes given are the bytes sent, then the
ones the ring holds from the reader on, then the one in the task's hand,
and `tx_counter` counts the ring, up to the increment the task may be
short of. Every statement and every run of the handler keeps it but one:
a handler that takes a byte out between the load and the store of
`++tx_counter` has its decrement overwritten. The transmit interrupt is
masked there (`masked_step`), so it is the receive interrupt that enters
the handler (`Disturbed.rx`). Runs without it keep the ring a lossless
queue (`ring_fifo`).
-/

namespace SlipBoard

namespace Usart

open RingBuffer Transition

variable {useConsole : Bool} {p q : Port} {pend : List UInt8} {a : Action}

/-! ## The invariant -/

/-- The byte of a call that is neither in the ring nor sent. -/
def PutPc.inHand : PutPc → List UInt8
  | .waitFull data | .testCounter data | .testTxe data | .store data | .waitTxe data
  | .write data => [data]
  | _ => []

/-- The bytes that are stored but not yet counted: one between the store and
that of the counter. -/
def PutPc.uncounted : PutPc → ℕ
  | .wrap | .mask | .load | .storeCounter _ => 1
  | _ => 0

/-- The task stands between the load and the store of `++tx_counter`, where
a decrement of the handler is lost. -/
def PutPc.loaded : PutPc → Bool
  | .storeCounter _ => true
  | _ => false

/-- Between the two writes of `CR1` and in front of the store. -/
def PutPc.masked : PutPc → Bool
  | .load | .storeCounter _ => true
  | _ => false

/-- What the task knows of `tx_counter` where it stands: that the ring has
room, that nothing is queued, or the value it has loaded. -/
def PutPc.Knows (counter : ℕ) : PutPc → Prop
  | .testCounter _ | .store _ => counter < txBufferSize
  | .testTxe _ | .waitTxe _ | .write _ => counter = 0
  | .storeCounter loaded => loaded = counter
  | _ => True

/-- **The invariant.** `pend` is the queue: the ring holds it from the
reader to the writer, and `tx_counter` counts it. -/
structure Accounts (p : Port) (pend : List UInt8) : Prop where
  order : p.sent ++ pend ++ p.task.inHand = p.given
  ring : window p.txBuffer txBufferSize p.txRdIndex pend.length = pend
  reader_lt : p.txRdIndex < txBufferSize
  writer : p.txWrIndex % txBufferSize = (p.txRdIndex + pend.length) % txBufferSize
  writer_le : p.txWrIndex ≤ txBufferSize
  writer_lt : p.task ≠ .wrap → p.txWrIndex < txBufferSize
  counter : p.txCounter + p.task.uncounted = pend.length
  length_le : pend.length ≤ txBufferSize
  knows : p.task.Knows p.txCounter

theorem Accounts.init (registers : Registers) : Accounts (.init registers) [] where
  order := rfl
  ring := rfl
  reader_lt := show 0 < txBufferSize by decide
  writer := rfl
  writer_le := Nat.zero_le _
  writer_lt := fun _ => show 0 < txBufferSize by decide
  counter := rfl
  length_le := Nat.zero_le _
  knows := trivial

/-- A program counter that takes another's place without moving a
byte. -/
def PutPc.Replaces (task task' : PutPc) (counter : ℕ) : Prop :=
  task.inHand = task'.inHand ∧ task.uncounted = task'.uncounted ∧ task.Knows counter

theorem Accounts.move {task : PutPc} (h : Accounts p pend) (registers : Registers)
    (hwrap : p.task ≠ .wrap) (htask : task.Replaces p.task p.txCounter) :
    Accounts { p with registers := registers, task := task } pend := by
  obtain ⟨hhand, huncounted, hknows⟩ := htask
  refine ⟨?_, h.ring, h.reader_lt, h.writer, h.writer_le, fun _ => h.writer_lt hwrap, ?_, h.length_le,
    hknows⟩
  · simp only [hhand]
    exact h.order
  · simp only [huncounted]
    exact h.counter

/-- The registers and what was received have no part in it. -/
theorem Accounts.with_registers (h : Accounts p pend) (registers : Registers)
    (received : List UInt8) :
    Accounts { p with registers := registers, received := received } pend :=
  ⟨h.order, h.ring, h.reader_lt, h.writer, h.writer_le, h.writer_lt, h.counter, h.length_le, h.knows⟩

/-! ## The task's statements -/

/-- The store into the ring puts the byte behind the queue, although it is
not counted yet. -/
theorem Accounts.store {data : UInt8} (h : Accounts p pend) (htask : p.task = .store data) :
    Accounts { p with
      txBuffer := Function.update p.txBuffer p.txWrIndex data
      txWrIndex := p.txWrIndex + 1
      task := .wrap } (pend ++ [data]) := by
  have hlt := h.writer_lt (by rw [htask]; simp)
  have hcounter := h.counter
  have hknows := h.knows
  have horder := h.order
  have hwriter := h.writer
  rw [htask] at hcounter hknows horder
  simp only [PutPc.uncounted, PutPc.Knows, PutPc.inHand] at hcounter hknows horder
  have hlen : pend.length < txBufferSize := by omega
  have hcell : p.txWrIndex = (p.txRdIndex + pend.length) % txBufferSize := by
    rw [← hwriter, Nat.mod_eq_of_lt hlt]
  refine ⟨?_, ?_, h.reader_lt, ?_, hlt, fun hne => absurd rfl hne, ?_, ?_, trivial⟩
  · show p.sent ++ (pend ++ [data]) ++ [] = p.given
    rw [List.append_nil, ← List.append_assoc]
    exact horder
  · rw [List.length_append, List.length_singleton]
    simp only
    rw [hcell, window_push hlen, h.ring]
  · rw [List.length_append, List.length_singleton]
    exact writer_push hwriter
  · rw [List.length_append, List.length_singleton]
    simp only [PutPc.uncounted]
    omega
  · rw [List.length_append, List.length_singleton]
    omega

theorem Accounts.wrap (h : Accounts p pend) (htask : p.task = .wrap) :
    Accounts { p with txWrIndex := RingBuffer.wrap txBufferSize p.txWrIndex, task := .mask }
      pend := by
  have hcounter := h.counter
  have horder := h.order
  rw [htask] at hcounter horder
  refine ⟨horder, h.ring, h.reader_lt, ?_, ?_, fun _ => wrap_lt (by decide) h.writer_le, hcounter,
    h.length_le, trivial⟩
  · simp only [wrap_eq_mod h.writer_le, Nat.mod_mod]
    exact h.writer
  · exact Nat.le_of_lt (wrap_lt (by decide) h.writer_le)

/-- The store of the counter takes the byte in. -/
theorem Accounts.storeCounter {loaded : ℕ} (h : Accounts p pend)
    (htask : p.task = .storeCounter loaded) :
    Accounts { p with txCounter := (loaded + 1) % 2 ^ 16, task := .unmask } pend := by
  have hcounter := h.counter
  have horder := h.order
  have hknows := h.knows
  have hlen := h.length_le
  rw [htask] at hcounter horder hknows
  simp only [PutPc.uncounted, PutPc.Knows] at hcounter hknows
  rw [txBufferSize] at hlen
  refine ⟨horder, h.ring, h.reader_lt, h.writer, h.writer_le, fun _ =>
    h.writer_lt (by rw [htask]; simp), ?_, h.length_le, trivial⟩
  -- at most 256 are counted, so the `uint16_t` does not wrap
  simp only [PutPc.uncounted]
  omega

/-- On the direct way the queue is empty, so the byte is the next one to be
sent. -/
theorem Accounts.write {data : UInt8} (h : Accounts p pend) (htask : p.task = .write data) :
    Accounts { p.writeDR data with task := .out } pend := by
  have hcounter := h.counter
  have horder := h.order
  have hknows := h.knows
  rw [htask] at hcounter horder hknows
  simp only [PutPc.uncounted, PutPc.Knows] at hcounter hknows
  have hnil : pend = [] := List.length_eq_zero_iff.1 (by omega)
  subst hnil
  refine ⟨?_, h.ring, h.reader_lt, h.writer, h.writer_le, fun _ =>
    h.writer_lt (by rw [htask]; simp), ?_, h.length_le, trivial⟩
  · show p.sent ++ [data] ++ [] ++ [] = p.given
    rw [List.append_nil] at horder
    rw [List.append_nil, List.append_nil]
    exact horder
  · exact hcounter

/-- **A statement of `putUart6`** keeps the accounts, wherever the task
stands. -/
theorem Accounts.putUart6 (h : Accounts p pend) : ∃ pend', Accounts p.putUart6 pend' := by
  have hknows := h.knows
  have hcounter := h.counter
  have hlen := h.length_le
  unfold Port.putUart6
  cases htask : p.task with
  | out => exact ⟨pend, h⟩
  | waitFull data =>
    simp only [htask, PutPc.uncounted] at hcounter
    refine ⟨pend, h.move p.registers (by simp [htask]) ?_⟩
    rw [htask]
    -- behind the wait a cell is free, and the handler only frees more
    split
    · exact ⟨rfl, rfl, trivial⟩
    · exact ⟨rfl, rfl, Nat.lt_of_le_of_ne (by omega) ‹_›⟩
  | testCounter data =>
    rw [htask] at hknows
    refine ⟨pend, h.move p.registers (by simp [htask]) ?_⟩
    rw [htask]
    split
    · exact ⟨rfl, rfl, hknows⟩
    · exact ⟨rfl, rfl, not_not.1 ‹_›⟩
  | testTxe data =>
    rw [htask] at hknows
    have hzero : p.txCounter = 0 := hknows
    refine ⟨pend, h.move p.registers (by simp [htask]) ?_⟩
    rw [htask]
    split
    · exact ⟨rfl, rfl, by rw [PutPc.Knows, hzero]; decide⟩
    · exact ⟨rfl, rfl, hzero⟩
  | store data => exact ⟨_, h.store htask⟩
  | wrap => exact ⟨pend, h.wrap htask⟩
  | mask =>
    refine ⟨pend, h.move { p.registers with txeie := false } (by simp [htask]) ?_⟩
    rw [htask]
    exact ⟨rfl, rfl, trivial⟩
  | load =>
    refine ⟨pend, h.move p.registers (by simp [htask]) ?_⟩
    rw [htask]
    exact ⟨rfl, rfl, rfl⟩
  | storeCounter loaded => exact ⟨pend, h.storeCounter htask⟩
  | unmask =>
    refine ⟨pend, h.move { p.registers with txeie := true } (by simp [htask]) ?_⟩
    rw [htask]
    exact ⟨rfl, rfl, trivial⟩
  | waitTxe data =>
    rw [htask] at hknows
    refine ⟨pend, h.move p.registers (by simp [htask]) ?_⟩
    rw [htask]
    split
    · exact ⟨rfl, rfl, hknows⟩
    · exact ⟨rfl, rfl, hknows⟩
  | write data => exact ⟨pend, h.write htask⟩

/-- A call takes its byte in hand: it has been put, and is neither queued
nor sent. -/
theorem Accounts.put (h : Accounts p pend) (hout : p.task = .out) (data : UInt8) :
    Accounts { p with task := .waitFull data, given := p.given ++ [data] } pend := by
  have hcounter := h.counter
  have horder := h.order
  simp only [hout, PutPc.uncounted] at hcounter
  simp only [hout, PutPc.inHand, List.append_nil] at horder
  refine ⟨?_, h.ring, h.reader_lt, h.writer, h.writer_le, fun _ => h.writer_lt (by simp [hout]),
    hcounter, h.length_le, trivial⟩
  show p.sent ++ pend ++ [data] = p.given ++ [data]
  rw [horder]

/-! ## The handler -/

/-- The part of reception touches no flag and no enable of
transmission. -/
theorem handleRx_eq (useConsole : Bool) (p : Port) : ∃ r received, p.handleRx useConsole =
      { p with registers := r, received := received } ∧ r.txe = p.registers.txe ∧
    r.txeie = p.registers.txeie ∧ r.rxneie = p.registers.rxneie := by
  unfold Port.handleRx
  split
  · split
    · split
      · exact ⟨_, _, rfl, rfl, rfl, rfl⟩
      · exact ⟨p.registers, p.received, rfl, rfl, rfl, rfl⟩
    · exact ⟨_, p.received, rfl, rfl, rfl, rfl⟩
  · exact ⟨p.registers, p.received, rfl, rfl, rfl, rfl⟩

theorem handleOre_eq (p : Port) : ∃ r, p.handleOre = { p with registers := r } ∧
    r.txeie = p.registers.txeie ∧ r.rxneie = p.registers.rxneie := by
  unfold Port.handleOre
  split
  · exact ⟨_, rfl, rfl, rfl⟩
  · exact ⟨p.registers, rfl, rfl, rfl⟩

/-- The handler takes the head of the queue, unless a load of the counter
is waiting for its store. -/
theorem Accounts.pop (h : Accounts p pend) (hne : p.txCounter ≠ 0)
    (hload : p.task.loaded = false) :
    ∃ pend', Accounts { p.writeDR (p.txBuffer p.txRdIndex) with
      txCounter := p.txCounter - 1
      txRdIndex := next txBufferSize p.txRdIndex } pend' := by
  have hcounter := h.counter
  have hring := h.ring
  have hwriter := h.writer
  have hlen := h.length_le
  have hknows := h.knows
  cases pend with
  | nil =>
    rw [List.length_nil] at hcounter
    omega
  | cons b pend =>
    rw [List.length_cons, window_cons h.reader_lt] at hring
    obtain ⟨hb, hring⟩ := List.cons.inj hring
    rw [List.length_cons] at hcounter hwriter hlen
    refine ⟨pend, ?_, hring, next_lt h.reader_lt, ?_, h.writer_le, h.writer_lt, ?_, ?_, ?_⟩
    · show p.sent ++ [p.txBuffer p.txRdIndex] ++ pend ++ p.task.inHand = p.given
      rw [hb, ← h.order]
      simp
    · exact writer_pop h.reader_lt hwriter
    · show p.txCounter - 1 + p.task.uncounted = pend.length
      omega
    · omega
    · show p.task.Knows (p.txCounter - 1)
      cases htask : p.task with
      | testCounter data | store data =>
        rw [htask] at hknows
        exact Nat.lt_of_le_of_lt (Nat.sub_le _ _) hknows
      | testTxe data | waitTxe data | write data =>
        rw [htask] at hknows
        exact absurd hknows hne
      | storeCounter loaded =>
        -- here the value loaded would no longer be the counter
        rw [htask] at hload
        cases hload
      | _ => trivial

/-- The step that goes wrong: the handler finds a byte to send while the
task stands between the load and the store of `++tx_counter`. -/
def Disturbed (p : Port) (a : Action) : Prop :=
  a = .interrupt ∧ p.registers.txe = true ∧ p.txCounter ≠ 0 ∧ p.task.loaded = true

instance (p : Port) (a : Action) : Decidable (Disturbed p a) :=
  inferInstanceAs (Decidable (_ ∧ _ ∧ _ ∧ _))

/-- **A run of the handler** keeps the accounts, where it does not decrement
the counter between the load and the store of the task's increment. -/
theorem Accounts.interrupt (h : Accounts p pend) (hd : ¬ Disturbed p .interrupt) :
    ∃ pend', Accounts (p.usart6IrqHandler useConsole) pend' := by
  obtain ⟨r, received, hrx, htxe, -⟩ := handleRx_eq useConsole p
  obtain ⟨pend', htx⟩ : ∃ pend', Accounts (p.handleRx useConsole).handleTx pend' := by
    rw [hrx, Port.handleTx]
    split
    · split
      · refine (h.with_registers r received).pop ‹_› (Bool.eq_false_iff.2 fun hload => hd ?_)
        exact ⟨rfl, htxe ▸ ‹_›, ‹_›, hload⟩
      · exact ⟨pend, h.with_registers _ received⟩
    · exact ⟨pend, h.with_registers r received⟩
  obtain ⟨r', hore, -⟩ := handleOre_eq (p.handleRx useConsole).handleTx
  refine ⟨pend', ?_⟩
  rw [Port.usart6IrqHandler, hore]
  exact htx.with_registers r' _

/-! ## Runs -/

/-- **Every step but the one that goes wrong** keeps the accounts, whichever
of the task and the handler makes it. -/
theorem Accounts.step (h : Accounts p pend) (hd : ¬ Disturbed p a)
    (hstep : p.step useConsole a = some q) : ∃ pend', Accounts q pend' := by
  cases a with
  | put data =>
    simp only [Port.step] at hstep
    split at hstep
    · obtain rfl := Option.some.inj hstep
      exact ⟨pend, h.put ‹_› data⟩
    · cases hstep
  | task =>
    simp only [Port.step] at hstep
    split at hstep
    · cases hstep
    · obtain rfl := Option.some.inj hstep
      exact h.putUart6
  | interrupt =>
    simp only [Port.step] at hstep
    split at hstep
    · obtain rfl := Option.some.inj hstep
      exact h.interrupt hd
    · cases hstep
  | txEmpty =>
    obtain rfl := Option.some.inj hstep
    exact ⟨pend, h.with_registers _ p.received⟩
  | receive data error =>
    simp only [Port.step] at hstep
    split at hstep
    · obtain rfl := Option.some.inj hstep
      exact ⟨pend, h.with_registers _ p.received⟩
    · obtain rfl := Option.some.inj hstep
      exact ⟨pend, h.with_registers _ p.received⟩

/-- **A lossless queue**: the counter is in range, and counts the bytes
given and not yet sent; these are in the ring, in order. -/
def Lossless (p : Port) : Prop :=
  p.txCounter ≤ txBufferSize ∧ p.txCounter + p.sent.length = p.given.length ∧
    p.sent ++ window p.txBuffer txBufferSize p.txRdIndex p.txCounter = p.given

instance (p : Port) : Decidable (Lossless p) := inferInstanceAs (Decidable (_ ∧ _ ∧ _))

/-- Outside `putUart6` the accounts are those of a lossless queue. -/
theorem Accounts.lossless (h : Accounts p pend) (hout : p.task = .out) : Lossless p := by
  have hcounter := h.counter
  have horder := h.order
  have hring := h.ring
  simp only [hout, PutPc.uncounted, Nat.add_zero] at hcounter
  simp only [hout, PutPc.inHand, List.append_nil] at horder
  rw [← hcounter] at hring
  refine ⟨hcounter ▸ h.length_le, ?_, by rw [hring, horder]⟩
  have hlen := congrArg List.length horder
  rw [List.length_append] at hlen
  omega

theorem Accounts.always {as : List Action} (h : Accounts p pend)
    (has : Along (Port.step useConsole) (fun p a => ¬ Disturbed p a) p as) :
    Always (Port.step useConsole) (fun p => p.task = .out → Lossless p) p as := by
  refine always_of_invariant (I := fun p => ∃ pend, Accounts p pend) ?_ ?_ ⟨pend, h⟩ has
  · rintro p a q ⟨pend, h⟩ hd hstep
    exact h.step hd hstep
  · rintro p ⟨pend, h⟩ hout
    exact h.lossless hout

/-- **The ring is a lossless queue** in every run in which no run of the
handler sends a byte between the load and the store of `++tx_counter`. Where
one does, its decrement is lost, and the counter stays one above the bytes
that are there. -/
theorem ring_fifo (useConsole : Bool) (registers : Registers) (as : List Action)
    (has : Along (Port.step useConsole) (fun p a => ¬ Disturbed p a) (.init registers) as) :
    Always (Port.step useConsole) (fun p => p.task = .out → Lossless p) (.init registers) as :=
  (Accounts.init registers).always has

/-! ## Who enters the handler there -/

/-- The transmit interrupt is masked around the increment, as the comment of
the source has it. -/
def Masked (p : Port) : Prop := p.task.masked = true → p.registers.txeie = false

theorem handler_frame (useConsole : Bool) (p : Port) :
    (p.usart6IrqHandler useConsole).task = p.task ∧
      (p.usart6IrqHandler useConsole).registers.rxneie = p.registers.rxneie ∧
      (p.registers.txeie = false → (p.usart6IrqHandler useConsole).registers.txeie = false) := by
  obtain ⟨r, received, hrx, -, htxeie, hrxneie⟩ := handleRx_eq useConsole p
  obtain ⟨r', hore, htxeie', hrxneie'⟩ := handleOre_eq (p.handleRx useConsole).handleTx
  have htx : (p.handleRx useConsole).handleTx.task = p.task ∧
      (p.handleRx useConsole).handleTx.registers.rxneie = p.registers.rxneie ∧
      (p.registers.txeie = false → (p.handleRx useConsole).handleTx.registers.txeie = false) := by
    rw [hrx, Port.handleTx]
    split
    · split
      · exact ⟨rfl, hrxneie, fun h => htxeie.trans h⟩
      · exact ⟨rfl, hrxneie, fun _ => rfl⟩
    · exact ⟨rfl, hrxneie, fun h => htxeie.trans h⟩
  rw [Port.usart6IrqHandler, hore]
  exact ⟨htx.1, hrxneie'.trans htx.2.1, fun h => htxeie'.trans (htx.2.2 h)⟩

theorem Masked.putUart6 (h : Masked p) : Masked p.putUart6 := by
  unfold Port.putUart6
  cases htask : p.task with
  | mask => exact fun _ => rfl
  | load => exact fun _ => h (by rw [htask]; rfl)
  | out => exact h
  | waitFull data | testCounter data | testTxe data | waitTxe data =>
    -- a test leads to no statement of the increment
    intro hmasked
    simp only at hmasked
    split at hmasked <;> cases hmasked
  | store data | wrap | storeCounter loaded | unmask | write data =>
    intro hmasked
    cases hmasked

theorem putUart6_rxneie (p : Port) : p.putUart6.registers.rxneie = p.registers.rxneie := by
  unfold Port.putUart6
  cases p.task <;> rfl

/-- **It stays masked**, and nothing touches the enable of reception: so the
interrupt of reception can always come. -/
theorem Masked.step (h : Masked p) (hstep : p.step useConsole a = some q) :
    Masked q ∧ q.registers.rxneie = p.registers.rxneie := by
  cases a with
  | put data =>
    simp only [Port.step] at hstep
    split at hstep
    · obtain rfl := Option.some.inj hstep
      refine ⟨fun hmasked => ?_, rfl⟩
      cases hmasked
    · cases hstep
  | task =>
    simp only [Port.step] at hstep
    split at hstep
    · cases hstep
    · obtain rfl := Option.some.inj hstep
      exact ⟨h.putUart6, putUart6_rxneie p⟩
  | interrupt =>
    simp only [Port.step] at hstep
    split at hstep
    · obtain rfl := Option.some.inj hstep
      obtain ⟨htask, hrxneie, htxeie⟩ := handler_frame useConsole p
      exact ⟨fun hq => htxeie (h (htask ▸ hq)), hrxneie⟩
    · cases hstep
  | txEmpty =>
    obtain rfl := Option.some.inj hstep
    exact ⟨h, rfl⟩
  | receive data error =>
    simp only [Port.step] at hstep
    split at hstep
    · obtain rfl := Option.some.inj hstep
      exact ⟨h, rfl⟩
    · obtain rfl := Option.some.inj hstep
      exact ⟨h, rfl⟩

/-- **Only reception enters the handler there**: the one of transmission is
masked, so it is a byte received that does the harm. -/
theorem Disturbed.rx (hd : Disturbed p a) (h : Masked p) (hstep : p.step useConsole a = some q) :
    p.registers.rxne = true ∧ p.registers.rxneie = true := by
  obtain ⟨rfl, -, -, hload⟩ := hd
  have hpending : p.registers.pending = true := by
    by_contra hno
    simp [Port.step, hno] at hstep
  have hmasked : p.task.masked = true := by
    cases htask : p.task with
    | storeCounter loaded => rfl
    | _ =>
      rw [htask] at hload
      cases hload
  simpa [Registers.pending, h hmasked] using hpending

/-- With the receive interrupt disabled every run is lossless. -/
theorem lossless_of_rx_disabled (useConsole : Bool) {registers : Registers}
    (hrx : registers.rxneie = false) (as : List Action) :
    Always (Port.step useConsole) (fun p => p.task = .out → Lossless p) (.init registers) as := by
  refine always_of_invariant (P := fun _ _ => True)
    (I := fun p => (∃ pend, Accounts p pend) ∧ Masked p ∧ p.registers.rxneie = false) ?_ ?_
    ⟨⟨[], .init registers⟩, ?_, hrx⟩ (along_of_forall (fun _ _ => trivial) _)
  · rintro p a q ⟨⟨pend, h⟩, hmasked, hrx⟩ - hstep
    obtain ⟨hmasked', hrx'⟩ := hmasked.step hstep
    refine ⟨h.step (fun hd => ?_) hstep, hmasked', hrx'.trans hrx⟩
    have henabled := (hd.rx hmasked hstep).2
    rw [hrx] at henabled
    cases henabled
  · rintro p ⟨⟨pend, h⟩, -, -⟩ hout
    exact h.lossless hout
  · exact fun hmasked => by cases hmasked

/-! ## The lost decrement -/

/-- The registers at reset, with the receive interrupt enabled. -/
def Registers.reset : Registers where
  rxne := false
  error := false
  ore := false
  txe := true
  rxneie := true
  txeie := false
  rdr := 0

/-- A call of `putUart6` and `n` of its statements, with nothing in between. -/
def call (data : UInt8) (n : ℕ) : List Action := .put data :: List.replicate n .task

/-- "A" goes out directly. While "B" is stored a byte comes in, and the
handler takes it; once the data register is empty it sends "B". -/
def receivedRun : List Action :=
  List.flatten [call 65 5, call 66 3, [.receive 13 false, .interrupt], List.replicate 6 .task,
    [.txEmpty, .interrupt]]

theorem ring_fifo_received :
    ∃ p, run (Port.step true) (.init .reset) receivedRun = some p ∧
      p.sent = [65, 66] ∧ p.received = [13] ∧ Lossless p := by
  have hrun : (run (Port.step true) (.init .reset) receivedRun).map
      (fun p => (decide (p.task = .out), p.sent, p.received)) = some (true, [65, 66], [13]) := by
    decide +kernel
  obtain ⟨p, hp, hfacts⟩ := Option.map_eq_some_iff.1 hrun
  simp only [Prod.mk.injEq, decide_eq_true_eq] at hfacts
  obtain ⟨hout, hsent, hreceived⟩ := hfacts
  exact ⟨p, hp, hsent, hreceived, (ring_fifo true .reset _ (by decide +kernel)).last hp hout⟩

/-- With "B" in the ring the task has loaded the counter for "C" when a
byte comes in: the handler sends "B" and counts down, and the store of
the loaded value plus one undoes it. -/
def disturbedRun : List Action :=
  List.flatten [call 65 5, call 66 9, call 67 6,
    [.txEmpty, .receive 13 false, .interrupt, .task, .task]]

/-- **The lost decrement**: the counter is 2, with one byte in the
ring. -/
theorem decrement_lost :
    ∃ p, run (Port.step true) (.init .reset) disturbedRun = some p ∧ p.task = .out ∧
      p.given = [65, 66, 67] ∧ p.sent = [65, 66] ∧ p.txCounter = 2 ∧ ¬ Lossless p := by
  have hrun : (run (Port.step true) (.init .reset) disturbedRun).map (fun p =>
        (decide (p.task = .out), p.given, p.sent, p.txCounter, decide (Lossless p))) =
      some (true, [65, 66, 67], [65, 66], 2, false) := by
    decide +kernel
  obtain ⟨p, hp, hfacts⟩ := Option.map_eq_some_iff.1 hrun
  simp only [Prod.mk.injEq, decide_eq_true_eq, decide_eq_false_iff_not] at hfacts
  exact ⟨p, hp, hfacts⟩

end Usart

end SlipBoard
