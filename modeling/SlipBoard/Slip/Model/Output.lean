import SlipBoard.Common.Traced
import SlipBoard.Slip.Model.Sio
/-!
# SLIP — sending

`slipif_output` of `slipif.c`, with the bytes it gives to the serial
port. `sio_send` of `sio.c` waits until the port takes the byte, so what
is on the line are these bytes in their order.
-/

namespace SlipBoard

namespace Slip

/-- `ERR_OK`. -/
abbrev errOk : Int := 0

/-- `sio_send`. -/
def sioSend (c : UInt8) : Traced UInt8 Unit := .emit c

/-- The `switch` of `slipif_output`. -/
def outputByte (c : UInt8) : Traced UInt8 Unit :=
  if c = slipEnd then do
    sioSend slipEsc
    sioSend slipEscEnd
  else if c = slipEsc then do
    sioSend slipEsc
    sioSend slipEscEsc
  else sioSend c

/-- The loop over the bytes of a buffer, from `i` on. -/
def outputPbuf (q : Pbuf) : ℕ → ℕ → Traced UInt8 Unit
  | 0, _ => return ()
  | left + 1, i => do
    outputByte (q.payload i)
    outputPbuf q left (i + 1)

/-- The loop over the buffers of a chain. -/
def outputChain : List Pbuf → Traced UInt8 Unit
  | [] => return ()
  | q :: p => do
    outputPbuf q q.len 0
    outputChain p

/-- `slipif_output`. -/
def slipifOutput (p : List Pbuf) : Traced UInt8 Int := do
  sioSend slipEnd
  outputChain p
  sioSend slipEnd
  return errOk

/-- `slipif_output_v4`, which has no use for the address. -/
def slipifOutputV4 (p : List Pbuf) (_ipaddr : UInt32) : Traced UInt8 Int := slipifOutput p

/-- The priv structure as `slipif_init` leaves it. -/
def slipifInit : SlipifPriv where
  p := none
  q := []
  state := .normal
  i := 0
  recved := 0

end Slip

end SlipBoard
