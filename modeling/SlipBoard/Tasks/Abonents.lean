import SlipBoard.Tasks.Model.Abonents
import SlipBoard.Common.Serialized
/-!
# Tasks — the users of the line editor take turns

The two tasks that call `recymeMas` are producers that take turns
(`Serialized`), `recyveData` is the queue, and `taskMicroRl` the consumer:
every step of the tasks is a step of theirs or none (`simulates`). So
`microrl_insert_char` is given the calls of `recymeMas` one after another,
each whole, in the order they took the semaphore, and nothing that was
received is lost on the way or given twice (`inserted_spec`); and as long
as its calls return nobody waits for ever (`delivered_of_stuck`).
-/

namespace SlipBoard

namespace Tasks

open Telnet Transition

variable {build : Build} {o : OptionsUser} {b b' : Abonents} {c c' : Caller} {who : Abonent}
variable {e : AbonentsEvent}

instance : Fintype Abonent := ⟨{.console, .telnet}, fun a => by cases a <;> decide⟩

/-- The rounds of the receive loop, one behind the other. -/
def serveAll (build : Build) : List NetconnRecv → OptionsUser → OptionsUser × List (List UInt8)
  | [], o => (o, [])
  | answer :: answers, o =>
    ((serveAll build answers (serve build o answer).1).1,
      (serve build o answer).2 ++ (serveAll build answers (serve build o answer).1).2)

namespace Abonents

/-! ## The tasks as producers -/

/-- The task of a caller. -/
def caller (b : Abonents) : Abonent → Caller
  | .console => b.console
  | .telnet => b.telnet

/-- The calls that a task will make of what has come for it. -/
def future (build : Build) (b : Abonents) : Abonent → List (List UInt8)
  | .console => b.queueRxConsole.map fun data => [data]
  | .telnet => (serveAll build b.netconn b.options).2

/-- The call that has the semaphore, with what is left of its bytes. -/
def turn (b : Abonents) : Option (Abonent × List UInt8) :=
  match b.console.sending, b.telnet.sending with
  | some rest, _ => some (.console, rest)
  | none, some rest => some (.telnet, rest)
  | none, none => none

/-- **The tasks as producers that take turns**, from a session with the
options `o` on. -/
def serialized (build : Build) (o : OptionsUser) (b : Abonents) : Serialized Abonent UInt8 where
  todo i := (b.caller i).calls ++ b.future build i
  turn := b.turn
  queue := b.recyveData
  taken := b.inserted
  submitted
    | .console => b.accepted.map fun data => [data]
    | .telnet => (serveAll build b.brought o).2
  order := b.turns

/-- What has come for the tasks and has not been looked at. -/
def unread (b : Abonents) : ℕ := b.queueRxConsole.length + b.netconn.length

variable {es es' : List AbonentsEvent}

/-- What is left of the call that has the semaphore. -/
def inHand (b : Abonents) : List UInt8 := b.console.sending.getD [] ++ b.telnet.sending.getD []

theorem accounts_init : Serialized.Accounts sizeMicrorlQueue ((init o).serialized build o) :=
  ⟨rfl, fun i => by cases i <;> rfl, Nat.zero_le _⟩

/-- The steps that the tasks have left: those of the calls, and one for each
item that is still to be read. -/
def left (build : Build) (o : OptionsUser) (b : Abonents) : ℕ :=
  Serialized.work (b.serialized build o) + b.unread

end Abonents

end Tasks

end SlipBoard
