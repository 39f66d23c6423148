import SlipBoard.Common.RingBuffer
/-!
# USART6 — the transmit ring

`putUart6` and `USART6_IRQHandler` of the build with
`USE_RING_BUFFER_USART6`, over the statics of the ring and the registers
the two touch. The task executes one statement a step, and `++tx_counter`
two: the load and the store. The handler runs whole, at any step its
interrupt is pending. The hardware sets flags at any time; `TXE` is
cleared only by a write to `DR`.
-/

namespace SlipBoard

namespace Usart

open RingBuffer

/-- `TX_BUFFER_SIZE`. -/
abbrev txBufferSize : ℕ := 256

/-- The registers of `USART6`: flags of `SR`, the enables of `CR1`, and
the byte received last. -/
structure Registers where
  rxne : Bool
  /-- `NE`, `FE` or `PE`. -/
  error : Bool
  ore : Bool
  txe : Bool
  rxneie : Bool
  txeie : Bool
  rdr : UInt8

/-- A read of `DR`, which the handler makes behind a read of `SR`: the
flags of reception are cleared. -/
def Registers.readDR (r : Registers) : Registers :=
  { r with rxne := false, error := false, ore := false }

/-- The handler's interrupt is pending. -/
def Registers.pending (r : Registers) : Bool := (r.rxne && r.rxneie) || (r.txe && r.txeie)

/-- Where `putUart6` stands. `testCounter` and `testTxe` are the two
halves of its `if`, `load` and `storeCounter` those of `++tx_counter`,
and `mask` and `unmask` the writes of `CR1` around it. -/
inductive PutPc
  | out
  | waitFull (data : UInt8)
  | testCounter (data : UInt8)
  | testTxe (data : UInt8)
  | store (data : UInt8)
  | wrap
  | mask
  | load
  | storeCounter (loaded : ℕ)
  | unmask
  | waitTxe (data : UInt8)
  | write (data : UInt8)
  deriving DecidableEq

/-- The statics of `uart.c`, the registers, the task, and three logs: the
bytes given to `putUart6`, written to `DR`, and handed to
`useFromInteruptUSART6`. -/
structure Port where
  registers : Registers
  txBuffer : ℕ → UInt8
  txWrIndex : ℕ
  txRdIndex : ℕ
  txCounter : ℕ
  task : PutPc
  given : List UInt8
  sent : List UInt8
  received : List UInt8

namespace Port

/-- The port at reset, whatever the registers hold. -/
def init (registers : Registers) : Port where
  registers := registers
  txBuffer := fun _ => 0
  txWrIndex := 0
  txRdIndex := 0
  txCounter := 0
  task := .out
  given := []
  sent := []
  received := []

variable (p : Port)

/-- `USART6->DR = data`. -/
def writeDR (data : UInt8) : Port :=
  { p with registers := { p.registers with txe := false }, sent := p.sent ++ [data] }

/-! ## The handler -/

/-- `if (USART6->SR & USART_SR_RXNE)`. Without `USE_CONSOLE` a byte
without error is left in `DR`. -/
def handleRx (useConsole : Bool) : Port :=
  if p.registers.rxne then
    if !p.registers.error then
      if useConsole then
        { p with registers := p.registers.readDR, received := p.received ++ [p.registers.rdr] }
      else p
    -- read, and the flag cleared by hand as well
    else { p with registers := { p.registers.readDR with rxne := false } }
  else p

/-- `if (USART6->SR & USART_SR_TXE)`. -/
def handleTx : Port :=
  if p.registers.txe then
    if p.txCounter ≠ 0 then
      { p.writeDR (p.txBuffer p.txRdIndex) with
        txCounter := p.txCounter - 1
        txRdIndex := next txBufferSize p.txRdIndex }
    else { p with registers := { p.registers with txeie := false } }
  else p

/-- `if (USART6->SR & USART_SR_ORE)`. -/
def handleOre : Port :=
  if p.registers.ore then { p with registers := { p.registers.readDR with ore := false } } else p

/-- `USART6_IRQHandler`. -/
def usart6IrqHandler (useConsole : Bool) : Port := (p.handleRx useConsole).handleTx.handleOre

/-! ## The task -/

/-- The next statement of `putUart6`. -/
def putUart6 : Port :=
  match p.task with
  | .out => p
  | .waitFull data =>
    { p with task := if p.txCounter = txBufferSize then .waitFull data else .testCounter data }
  | .testCounter data => { p with task := if p.txCounter ≠ 0 then .store data else .testTxe data }
  | .testTxe data => { p with task := if !p.registers.txe then .store data else .waitTxe data }
  | .store data =>
    { p with
      txBuffer := Function.update p.txBuffer p.txWrIndex data
      txWrIndex := p.txWrIndex + 1
      task := .wrap }
  | .wrap => { p with txWrIndex := RingBuffer.wrap txBufferSize p.txWrIndex, task := .mask }
  | .mask => { p with registers := { p.registers with txeie := false }, task := .load }
  | .load => { p with task := .storeCounter p.txCounter }
  | .storeCounter loaded => { p with txCounter := (loaded + 1) % 2 ^ 16, task := .unmask }
  | .unmask => { p with registers := { p.registers with txeie := true }, task := .out }
  | .waitTxe data => { p with task := if !p.registers.txe then .waitTxe data else .write data }
  | .write data => { p.writeDR data with task := .out }

end Port

/-! ## Steps -/

/-- What happens next: a call of `putUart6`, a statement of it, a run of
the handler, the data register getting empty, or a byte coming in. -/
inductive Action
  | put (data : UInt8)
  | task
  | interrupt
  | txEmpty
  | receive (data : UInt8) (error : Bool)
  deriving DecidableEq

/-- One step. A byte that comes in over an unread one is an overrun. -/
def Port.step (useConsole : Bool) (p : Port) : Action → Option Port
  | .put data =>
    if p.task = .out then some { p with task := .waitFull data, given := p.given ++ [data] }
    else none
  | .task => if p.task = .out then none else some p.putUart6
  | .interrupt => if p.registers.pending then some (p.usart6IrqHandler useConsole) else none
  | .txEmpty => some { p with registers := { p.registers with txe := true } }
  | .receive data error =>
    if p.registers.rxne then some { p with registers := { p.registers with ore := true } }
    else some { p with registers := { p.registers with rxne := true, error := error, rdr := data } }

end Usart

end SlipBoard
