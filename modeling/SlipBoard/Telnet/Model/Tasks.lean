import SlipBoard.Telnet.Model.Output
import SlipBoard.Common.Transition
/-!
# Telnet output — the tasks, statement by statement

Three tasks run over `Shared`: a printer inside `printTelNet`, the
sender `task_idle_SendDataTelNet`, and the server
`theard_Telnet_Server`. Each has a program counter naming its next
statement, and one step of the system is one statement of one of them,
chosen by the action. What lwIP answers a blocking call of the server is
part of the action.
-/

namespace SlipBoard

namespace Telnet

/-- Where `printTelNet` stands. The loop is tested with the string at
hand, so a program counter carries what is left of it. -/
inductive PrintPc
  | out
  | store (b : UInt8) (rest : List UInt8)
  | count (rest : List UInt8)
  | wrap (rest : List UInt8)
  deriving DecidableEq

/-- The loop test `str[i] != 0`: another byte to store, or out. -/
def PrintPc.loop : List UInt8 → PrintPc
  | [] => .out
  | b :: rest => .store b rest

/-- The next statement is `_counter++`. -/
def PrintPc.counts : PrintPc → Bool
  | .count _ => true
  | _ => false

/-- Where `task_idle_SendDataTelNet` stands. `out` is the delay before
`if(newconnUse != NULL)`, and `reset` both of its `_counter = 0`. -/
inductive SendPc
  | out
  | counted
  | compare (i : ℕ)
  | write (i : ℕ)
  | advance (i : ℕ)
  | reset
  deriving DecidableEq

/-- Where `theard_Telnet_Server` stands. `netbufDelete`, `delete` and
`info` are the calls of its error branch after `netconn_close`, in that
order, and `clear` is `newconnUse = NULL`. -/
inductive ServerPc
  | accept
  | publish (c : Conn)
  | recv (c : Conn)
  | close (c : Conn)
  | netbufDelete (c : Conn)
  | delete (c : Conn)
  | info (c : Conn)
  | clear (c : Conn)
  deriving DecidableEq

/-- The tasks, the connections accepted so far, and those on which
`netconn_delete` has been executed. -/
structure System where
  shared : Shared
  printer : PrintPc
  sender : SendPc
  server : ServerPc
  accepted : ℕ
  deleted : List Conn

/-- What happens next: a task calls `printTelNet`, or one of the tasks
executes a statement. `ok` is whether lwIP's blocking call answers
`ERR_OK`. -/
inductive Act
  | print (str : List UInt8)
  | printer
  | sender
  | server (ok : Bool)
  deriving DecidableEq

/-- A statement of `printTelNet`. -/
def printerStep (s : System) : Option System :=
  match s.printer with
  | .out => none
  | .store b rest => some { s with shared := s.shared.store b, printer := .count rest }
  | .count rest => some { s with shared := s.shared.count, printer := .wrap rest }
  | .wrap rest => some { s with shared := s.shared.wrapWr, printer := .loop rest }

/-- A statement of `task_idle_SendDataTelNet`. -/
def senderStep (s : System) : System :=
  match s.sender with
  | .out =>
    { s with sender := if s.shared.newconnUse ≠ none then .counted else .reset }
  | .counted => { s with sender := if s.shared.counter ≠ 0 then .compare 0 else .reset }
  -- `_counter` is read at every turn of the loop
  | .compare i => { s with sender := if i < s.shared.counter then .write i else .reset }
  | .write i => { s with shared := s.shared.write, sender := .advance i }
  | .advance i => { s with shared := s.shared.advance, sender := .compare ((i + 1) % 2 ^ 32) }
  | .reset => { s with shared := s.shared.reset, sender := .out }

/-- A statement of `theard_Telnet_Server`. A netbuf received without
error is handled and the loop goes round, and what the handling prints
is a `print` of the system. -/
def serverStep (ok : Bool) (s : System) : System :=
  match s.server with
  | .accept =>
    if ok then { s with server := .publish s.accepted, accepted := s.accepted + 1 } else s
  | .publish c => { s with shared := { s.shared with newconnUse := some c }, server := .recv c }
  | .recv c => if ok then s else { s with server := .close c }
  | .close c => { s with server := .netbufDelete c }
  | .netbufDelete c => { s with server := .delete c }
  | .delete c => { s with server := .info c, deleted := s.deleted ++ [c] }
  | .info c => { s with server := .clear c }
  | .clear _ => { s with shared := { s.shared with newconnUse := none }, server := .accept }

/-- A step of the system. A call of `printTelNet` waits for the one
before it, and returns at once where `newconnUse` is `NULL`. -/
def step (s : System) : Act → Option System
  | .print str =>
    if s.printer = .out then
      some (if s.shared.newconnUse = none then s else { s with printer := .loop str })
    else none
  | .printer => printerStep s
  | .sender => some (senderStep s)
  | .server ok => some (serverStep ok s)

/-- The system at power-up. -/
def System.init : System := ⟨Shared.init, .out, .out, .accept, 0, []⟩

/-- The printer is outside `printTelNet` and the sender outside a pass. -/
def System.Quiet (s : System) : Prop := s.printer = .out ∧ s.sender = .out

instance (s : System) : Decidable s.Quiet := inferInstanceAs (Decidable (_ ∧ _))

end Telnet

end SlipBoard
