import SlipBoard.Telnet.Model.Output
/-!
# Telnet output — a call as one step

The same statements as in `Model/Tasks.lean`, with `printTelNet` and a
pass of `task_idle_SendDataTelNet` each run to its end. Sessions open
and close around them: the server publishes a new connection when none
is published, and withdraws it.
-/

namespace SlipBoard

namespace Telnet

/-- The loop body of `printTelNet`. -/
def Shared.putByte (s : Shared) (b : UInt8) : Shared := (s.store b).count.wrapWr

/-- `printTelNet`. -/
def printTelNet (str : List UInt8) (s : Shared) : Shared :=
  if s.newconnUse = none then s else str.foldl Shared.putByte s

/-- The loop body of `task_idle_SendDataTelNet`. -/
def Shared.sendByte (s : Shared) : Shared := s.write.advance

/-- A pass of `task_idle_SendDataTelNet`. The count stands still while
the loop runs, since nothing else does. -/
def drainPass (s : Shared) : Shared :=
  if s.newconnUse ≠ none then
    (if s.counter ≠ 0 then Shared.sendByte^[s.counter] s else s).reset
  else s.reset

/-- The shared state, and how many connections have been accepted. -/
structure Line where
  shared : Shared
  accepted : ℕ

/-- What happens next: a call of `printTelNet`, a pass of the sender, or
the server publishing a connection or withdrawing it. -/
inductive Event
  | print (str : List UInt8)
  | drain
  | open
  | close
  deriving DecidableEq

/-- A step of the line. The server accepts no connection while it serves
one. -/
def Line.step (l : Line) : Event → Option Line
  | .print str => some { l with shared := printTelNet str l.shared }
  | .drain => some { l with shared := drainPass l.shared }
  | .open =>
    if l.shared.newconnUse = none then
      some ⟨{ l.shared with newconnUse := some l.accepted }, l.accepted + 1⟩
    else none
  | .close => some { l with shared := { l.shared with newconnUse := none } }

/-- The line at power-up. -/
def Line.init : Line := ⟨Shared.init, 0⟩

end Telnet

end SlipBoard
