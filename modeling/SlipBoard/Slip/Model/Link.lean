import SlipBoard.Common.Transition
import SlipBoard.Slip.Model.Sio
/-!
# SLIP — the receiving side

`USART2_IRQHandler`, `queueUART` and `task_rrintErrorUart` of `sio.c`,
with `slipif_loop_thread`, which takes the bytes out of the queue. The
handler runs whole, between any two steps of the tasks, and the flags it
reads do not change under it. The report task executes one statement a
step. The thread's step is a byte taken and processed; without a byte in
the queue it waits.
-/

namespace SlipBoard

namespace Slip

/-! ## `USART_SR` -/

/-- `USART_SR_NE | USART_SR_FE | USART_SR_PE | USART_SR_ORE`. -/
abbrev usartSrErrors : UInt32 := 0x4 ||| 0x2 ||| 0x1 ||| 0x8

/-- `USART_SR_ORE`. -/
abbrev usartSrOre : UInt32 := 0x8

/-- `USART_SR_RXNE`. -/
abbrev usartSrRxne : UInt32 := 0x20

/-- `FLAG_ERROR_QUEUE`. -/
abbrev flagErrorQueue : UInt32 := 0x10000

/-- `SIZE_QUEUE_RX_IN_SIO_C`. -/
abbrev sizeQueueRx : ℕ := 1024

/-- The lines that `task_rrintErrorUart` prints. -/
inductive ErrorLine
  | queue
  | overflow
  deriving DecidableEq

/-- Where `task_rrintErrorUart` stands: at one of its `if`s, or at the
write of `errorUartSR`. -/
inductive ErrorPc
  | test
  | testQueue
  | testOre
  | clear
  deriving DecidableEq

/-- The statics of `sio.c`, the interface, the report task, and three
logs: the bytes the line has brought, those given to
`slipif_rxbyte_input`, and the lines printed. -/
structure Link (σ : Type) where
  queueUART : Option (List UInt8)
  errorUartSR : UInt32
  netif : σ × SlipifPriv
  report : ErrorPc
  arrived : List UInt8
  taken : List UInt8
  printed : List ErrorLine

/-- What happens. -/
inductive LinkEvent
  /-- The interrupt, with what the handler reads from `SR` and `DR`. -/
  | interrupt (sr : UInt32) (dr : UInt8)
  /-- `xQueueCreate` in `sio_open`, with the interrupt enabled before. -/
  | create
  /-- A round of `slipif_loop_thread`. -/
  | loop
  /-- A statement of `task_rrintErrorUart`. -/
  | report

namespace Link

variable {σ : Type} (stack : Stack σ)

/-- The board with the interrupt enabled and no queue yet. -/
def init (netif : σ × SlipifPriv) : Link σ where
  queueUART := none
  errorUartSR := 0
  netif := netif
  report := .test
  arrived := []
  taken := []
  printed := []

/-- `xQueueSendFromISR`, and its answer. -/
def xQueueSendFromISR (queue : List UInt8) (data : UInt8) : Option (List UInt8) :=
  if queue.length < sizeQueueRx then some (queue ++ [data]) else none

/-- `USART2_IRQHandler`. -/
def usart2IRQHandler (l : Link σ) (sr : UInt32) (dr : UInt8) : Link σ :=
  if sr &&& usartSrRxne ≠ 0 then
    let l := { l with arrived := l.arrived ++ [dr] }
    if sr &&& usartSrErrors = 0 then
      match l.queueUART with
      | none => l
      | some queue =>
        match xQueueSendFromISR queue dr with
        | some queue => { l with queueUART := some queue }
        | none => { l with errorUartSR := l.errorUartSR ||| flagErrorQueue }
    else { l with errorUartSR := l.errorUartSR ||| sr }
  else l

/-- A statement of `task_rrintErrorUart`. -/
def taskRrintErrorUart (l : Link σ) : Link σ :=
  match l.report with
  | .test => if l.errorUartSR ≠ 0 then { l with report := .testQueue } else l
  | .testQueue =>
    { l with
      report := .testOre
      printed := if l.errorUartSR &&& flagErrorQueue ≠ 0 then l.printed ++ [.queue] else l.printed }
  | .testOre =>
    { l with
      report := .clear
      printed := if l.errorUartSR &&& usartSrOre ≠ 0 then l.printed ++ [.overflow] else l.printed }
  | .clear => { l with report := .test, errorUartSR := 0 }

/-- A step. The tasks start when the queue is there. -/
def step (l : Link σ) : LinkEvent → Option (Link σ)
  | .interrupt sr dr => some (l.usart2IRQHandler sr dr)
  | .create => if l.queueUART = none then some { l with queueUART := some [] } else none
  | .loop =>
    match l.queueUART with
    | some (c :: queue) => some { l with
        queueUART := some queue
        netif := slipifRxbyteInput stack l.netif c
        taken := l.taken ++ [c] }
    | _ => none
  | .report => if l.queueUART.isSome then some l.taskRrintErrorUart else none

end Link

end Slip

end SlipBoard
