import SlipBoard.Common.RingBuffer
/-!
# Telnet output — the ring and what is done to it

The statics `printTelNet` and `task_idle_SendDataTelNet` share: the ring
`buferTerminal`, its two indices and its count, and the connection
`newconnUse` the server task publishes. Each definition here is one
statement of the two functions, so that the interleaved model
(`Model/Tasks.lean`) and the model that takes a call as one step
(`Model/Session.lean`) are built from the same text.

Two fields are observations rather than statics. `printed` records each
byte stored, under the `newconnUse` of that moment, and `written` each
call of `netconn_write`.
-/

namespace SlipBoard

namespace Telnet

open RingBuffer

/-- A connection. `netconn_accept` answers a new one each time, so they
are numbered as they come. -/
abbrev Conn := ℕ

/-- `TELNET_BUFFER_SIZE`. -/
abbrev telnetBufferSize : ℕ := 1024

/-- The bytes of a log entered under a connection. -/
def bytesOn (log : List (Option Conn × UInt8)) (c : Conn) : List UInt8 :=
  (log.filter fun e => e.1 = some c).map Prod.snd

/-- What the tasks share, and what has been observed of them. -/
structure Shared where
  buferTerminal : ℕ → UInt8
  wrIndex : ℕ
  rdIndex : ℕ
  counter : ℕ
  newconnUse : Option Conn
  printed : List (Option Conn × UInt8)
  written : List (Option Conn × UInt8)

namespace Shared

variable (s : Shared)

/-- `buferTerminal[_wr_index++] = str[i++]`. -/
def store (b : UInt8) : Shared :=
  { s with
    buferTerminal := Function.update s.buferTerminal s.wrIndex b
    wrIndex := s.wrIndex + 1
    printed := s.printed ++ [(s.newconnUse, b)] }

/-- `_counter++`, on a `uint32_t`. -/
def count : Shared := { s with counter := (s.counter + 1) % 2 ^ 32 }

/-- `if(_wr_index == TELNET_BUFFER_SIZE) _wr_index = 0`. -/
def wrapWr : Shared := { s with wrIndex := wrap telnetBufferSize s.wrIndex }

/-- `netconn_write(newconnUse, &buferTerminal[_rd_index], 1, …)`. -/
def write : Shared :=
  { s with written := s.written ++ [(s.newconnUse, s.buferTerminal s.rdIndex)] }

/-- `_rd_index++`, and the wrap behind it. -/
def advance : Shared := { s with rdIndex := next telnetBufferSize s.rdIndex }

/-- `_counter = 0`. -/
def reset : Shared := { s with counter := 0 }

/-- The bytes the ring holds, as the indices and the count tell it. -/
def held : List UInt8 := window s.buferTerminal telnetBufferSize s.rdIndex s.counter

/-- The bytes stored since the observation began. -/
def printedBytes : List UInt8 := s.printed.map Prod.snd

/-- The bytes handed to `netconn_write`. -/
def writtenBytes : List UInt8 := s.written.map Prod.snd

/-- How many printed bytes are unsent. -/
def unsent : ℕ := s.printed.length - s.written.length

/-- The bytes printed while `newconnUse` was `c`. -/
def printedOn (c : Conn) : List UInt8 := bytesOn s.printed c

/-- The bytes handed to `netconn_write` on `c`. -/
def writtenOn (c : Conn) : List UInt8 := bytesOn s.written c

/-- How many of the open session's bytes are still to be sent. -/
def pending : ℕ :=
  match s.newconnUse with
  | none => 0
  | some c => (s.printedOn c).length - (s.writtenOn c).length

end Shared

/-- The statics at power-up, where the loader has zeroed them. -/
def Shared.init : Shared := ⟨fun _ => 0, 0, 0, 0, none, [], []⟩

/-- A connection has just been published over a drained ring: nothing is
counted, and the reader stands where the writer does. -/
structure Shared.Fresh (s : Shared) (c : Conn) : Prop where
  conn : s.newconnUse = some c
  counter : s.counter = 0
  aligned : s.rdIndex = s.wrIndex
  bound : s.rdIndex < telnetBufferSize
  printed : s.printed = []
  written : s.written = []

end Telnet

end SlipBoard
