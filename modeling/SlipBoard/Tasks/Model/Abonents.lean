import SlipBoard.Common.Transition
import SlipBoard.Telnet.Model.Console
/-!
# Tasks — the two users of the line editor

`recymeMas`, `recyveDat` and the loop of `taskMicroRl` of
`microrlthead.c`, with the tasks that call them: `theard_Consol`, which
the interrupt of USART6 feeds through `queueRxConsole`, and the receive
loop of `theard_Telnet_Server`, which lwIP feeds. A step is a statement
of a task, up to its next call that can wait; a call that waits is a
step that is not enabled. What the tasks print is left out.

The tasks are past their starts: `taskMicroRl` has made the semaphore and
its queue, and `theard_Consol` its own. A call of `microrl_insert_char`
runs a command at the Enter, and a command need not come back: `ebi_rw`
calls `exit` where a number is not one. So a call returns, or it is the
last thing that `taskMicroRl` does.
-/

namespace SlipBoard

namespace Tasks

open Telnet

/-- `SIZE_MICRORL_QUEUE`. -/
abbrev sizeMicrorlQueue : ℕ := 128

/-- `DEFOULT_SIZE_QUEUE_RX`. -/
abbrev defoultSizeQueueRx : ℕ := 256

/-- The tasks that call `recymeMas`. -/
inductive Abonent
  | console
  | telnet
  deriving DecidableEq

/-- A task that calls `recymeMas`: what is left of the loop over `data`,
where it is in the loop, and the calls that are left behind it. -/
structure Caller where
  sending : Option (List UInt8)
  calls : List (List UInt8)

/-- Neither in a call nor before one. -/
def Caller.waits (c : Caller) : Bool := c.sending.isNone && c.calls.isEmpty

/-- What `netconn_recv` answers: a netbuf, or an error. Behind an error
the next connection is accepted, and the options of its session hold
what the stack held. -/
inductive NetconnRecv
  | data (buf : List UInt8)
  | error (userVal : ℕ) (val : Block tnMaxSizeStr)

/-- The state a session of a build starts in. -/
def start : Build → Var
  | .accest _ => .loginPrint
  | .plain => .input

/-- The calls of `recymeMas` among the calls. -/
def recymeCalls (calls : List Call) : List (List UInt8) :=
  calls.filterMap fun
    | .recymeMas data => some data
    | _ => none

/-- A round of the receive loop: the calls of `recymeMas` it makes. -/
def serve (build : Build) (o : OptionsUser) : NetconnRecv → OptionsUser × List (List UInt8)
  | .data buf => ((handleNetbuf build buf o).1, recymeCalls (handleNetbuf build buf o).2)
  | .error userVal val => (⟨start build, userVal, val, 0⟩, [])

/-- The queues and the tasks, and four logs: the calls of `recymeMas` in
the order they took the semaphore, the bytes given to
`microrl_insert_char`, those put into `queueRxConsole`, and what lwIP has
brought. `taskMicroRl` tells that the last call of `microrl_insert_char`
has returned. -/
structure Abonents where
  semaforeAbonent : Bool
  recyveData : List UInt8
  queueRxConsole : List UInt8
  netconn : List NetconnRecv
  options : OptionsUser
  console : Caller
  telnet : Caller
  taskMicroRl : Bool
  turns : List (Abonent × List UInt8)
  inserted : List UInt8
  accepted : List UInt8
  brought : List NetconnRecv

/-- What happens: the handler of USART6 has a byte, lwIP an answer, or one
of the tasks executes a statement. `exit` is the step of `taskMicroRl`
whose call of `microrl_insert_char` does not return. -/
inductive AbonentsEvent
  | useFromInteruptUSART6 (data : UInt8)
  | netconn (answer : NetconnRecv)
  | console
  | telnet
  | microrl
  | exit

namespace Abonents

/-- Every task waits, in a session with the options `o`. -/
def init (o : OptionsUser) : Abonents where
  semaforeAbonent := true
  recyveData := []
  queueRxConsole := []
  netconn := []
  options := o
  console := ⟨none, []⟩
  telnet := ⟨none, []⟩
  taskMicroRl := true
  turns := []
  inserted := []
  accepted := []
  brought := []

/-- A statement of `recymeMas`, in a task that is in a call or before one:
`xSemaphoreTake`, the `xQueueSend` of `recyveDat`, or `xSemaphoreGive`. -/
def recymeMas (b : Abonents) (who : Abonent) : Caller → Option (Abonents × Caller)
  | ⟨none, data :: calls⟩ =>
    if b.semaforeAbonent then
      some ({ b with semaforeAbonent := false, turns := b.turns ++ [(who, data)] },
        ⟨some data, calls⟩)
    else none
  | ⟨some (data :: rest), calls⟩ =>
    if b.recyveData.length < sizeMicrorlQueue then
      some ({ b with recyveData := b.recyveData ++ [data] }, ⟨some rest, calls⟩)
    else none
  | ⟨some [], calls⟩ => some ({ b with semaforeAbonent := true }, ⟨none, calls⟩)
  | ⟨none, []⟩ => none

/-- A step of `theard_Consol`. -/
def theardConsol (b : Abonents) : Option Abonents :=
  if b.console.waits then
    match b.queueRxConsole with
    | data :: queue => some { b with queueRxConsole := queue, console := ⟨none, [[data]]⟩ }
    | [] => none
  else
    (b.recymeMas .console b.console).map fun r => { r.1 with console := r.2 }

/-- A step of `theard_Telnet_Server`. -/
def theardTelnetServer (build : Build) (b : Abonents) : Option Abonents :=
  if b.telnet.waits then
    match b.netconn with
    | answer :: netconn => some { b with
        netconn := netconn
        options := (serve build b.options answer).1
        telnet := ⟨none, (serve build b.options answer).2⟩ }
    | [] => none
  else
    (b.recymeMas .telnet b.telnet).map fun r => { r.1 with telnet := r.2 }

/-- A round of the loop of `taskMicroRl`: a byte of the queue, for
`microrl_insert_char`, which returns or not. -/
def microrlInsertChar (b : Abonents) (returns : Bool) : Option Abonents :=
  if b.taskMicroRl then
    match b.recyveData with
    | data :: queue => some { b with
        recyveData := queue
        taskMicroRl := returns
        inserted := b.inserted ++ [data] }
    | [] => none
  else none

/-- A step. `useFromInteruptUSART6` drops what its queue has no room
for. -/
def step (build : Build) (b : Abonents) : AbonentsEvent → Option Abonents
  | .useFromInteruptUSART6 data =>
    if b.queueRxConsole.length < defoultSizeQueueRx then
      some { b with queueRxConsole := b.queueRxConsole ++ [data], accepted := b.accepted ++ [data] }
    else some b
  | .netconn answer => some { b with
      netconn := b.netconn ++ [answer]
      brought := b.brought ++ [answer] }
  | .console => b.theardConsol
  | .telnet => b.theardTelnetServer build
  | .microrl => b.microrlInsertChar true
  | .exit => b.microrlInsertChar false

end Abonents

end Tasks

end SlipBoard
