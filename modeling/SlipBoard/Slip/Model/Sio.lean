import SlipBoard.Common.Receiver
import Mathlib.Logic.Function.Basic
/-!
# SLIP — the serial port

`sio_recv`, `sio_read` and `sio_tryread` of `sio.c`, and of lwIP's
`slipif.c` what `slipif_poll` does with a byte: `slipif_rxbyte` and
`slipif_rxbyte_input`. `xQueueReceive` with `portMAX_DELAY` waits on an
empty `queueUART` until a byte is sent.

What the stack answers is a parameter: the chain of buffers that
`pbuf_alloc` gives, or none, and what `netif->input` does with a packet,
with `pbuf_free` behind it where it is not taken.
-/

namespace SlipBoard

namespace Slip

/-! ## sio.c -/

/-- `xQueueReceive (queueUART, &c, portMAX_DELAY)`. -/
def xQueueReceive : Receiver UInt8 UInt8 := .receive .done

/-- `sio_recv`. The loop around the call ends with the first byte. -/
def sioRecv : Receiver UInt8 UInt8 := xQueueReceive

/-- The loop of `sio_read`, from `i` on. -/
def sioReadLoop : ℕ → ℕ → (ℕ → UInt8) → Receiver UInt8 (ℕ → UInt8)
  | 0, _, data => return data
  | left + 1, i, data => do
    let c ← sioRecv
    sioReadLoop left (i + 1) (Function.update data i c)

/-- `sio_read`: what `data` holds, and the number returned. -/
def sioRead (data : ℕ → UInt8) (len : UInt32) : Receiver UInt8 ((ℕ → UInt8) × UInt32) := do
  let data ← sioReadLoop len.toNat 0 data
  return (data, len)

/-- `sio_tryread`. -/
def sioTryread (data : ℕ → UInt8) (len : UInt32) : Receiver UInt8 ((ℕ → UInt8) × UInt32) :=
  sioRead data len

/-! ## slipif.c -/

/-- `SLIP_END`. -/
abbrev slipEnd : UInt8 := 0xC0

/-- `SLIP_ESC`. -/
abbrev slipEsc : UInt8 := 0xDB

/-- `SLIP_ESC_END`. -/
abbrev slipEscEnd : UInt8 := 0xDC

/-- `SLIP_ESC_ESC`. -/
abbrev slipEscEsc : UInt8 := 0xDD

/-- `SLIP_MAX_SIZE`. -/
abbrev slipMaxSize : UInt16 := 1500

/-- `struct pbuf`: its payload, of which the first `len` bytes count. -/
structure Pbuf where
  payload : ℕ → UInt8
  len : ℕ

/-- `enum slipif_recv_state`. -/
inductive RecvState
  | normal
  | escape
  deriving DecidableEq

/-- `struct slipif_priv`. The chain `q` is empty where it is `NULL`, and
`p` is a place in it. -/
structure SlipifPriv where
  p : Option ℕ
  q : List Pbuf
  state : RecvState
  i : UInt16
  recved : UInt16

/-- The stack, with a state of its own. -/
structure Stack (σ : Type) where
  pbufAlloc : σ → σ × Option (Pbuf × List Pbuf)
  input : σ → List Pbuf → σ

variable {σ : Type} (stack : Stack σ)

/-- `pbuf_realloc`: the chain is cut to `size` bytes. -/
def pbufRealloc : ℕ → List Pbuf → List Pbuf
  | _, [] => []
  | size, b :: q => if size ≤ b.len then [{ b with len := size }] else b :: pbufRealloc (size - b.len) q

/-- The end of `slipif_rxbyte`: the byte goes to the current buffer, or to
a new one. -/
def storeByte (s : σ × SlipifPriv) (c : UInt8) : σ × SlipifPriv :=
  let (mem, priv) := s
  let (mem, priv) :=
    match priv.p with
    | some _ => (mem, priv)
    | none =>
      match stack.pbufAlloc mem with
      | (mem, none) => (mem, priv)
      | (mem, some (b, bs)) => (mem, { priv with p := some priv.q.length, q := priv.q ++ b :: bs })
  match priv.p with
  | none => (mem, priv)
  | some p =>
    if priv.recved ≤ slipMaxSize then
      let q := priv.q.modify p fun b =>
        { b with payload := Function.update b.payload priv.i.toNat c }
      let priv := { priv with q := q, recved := priv.recved + 1, i := priv.i + 1 }
      if (q[p]?.map Pbuf.len).getD 0 ≤ priv.i.toNat then
        let more := (q[p + 1]?.map Pbuf.len).getD 0 > 0
        (mem, { priv with i := 0, p := if more then some (p + 1) else none })
      else (mem, priv)
    else (mem, priv)

/-- `slipif_rxbyte`: the state, and the packet where one is complete. -/
def slipifRxbyte (s : σ × SlipifPriv) (c : UInt8) : (σ × SlipifPriv) × Option (List Pbuf) :=
  let (mem, priv) := s
  match priv.state with
  | .normal =>
    if c = slipEnd then
      if priv.recved > 0 then
        ((mem, { priv with p := none, q := [], i := 0, recved := 0 }),
          some (pbufRealloc priv.recved.toNat priv.q))
      else (s, none)
    else if c = slipEsc then ((mem, { priv with state := .escape }), none)
    else (storeByte stack s c, none)
  | .escape =>
    let c := if c = slipEscEnd then slipEnd else if c = slipEscEsc then slipEsc else c
    (storeByte stack (mem, { priv with state := .normal }) c, none)

/-- `slipif_rxbyte_input`. -/
def slipifRxbyteInput (s : σ × SlipifPriv) (c : UInt8) : σ × SlipifPriv :=
  match slipifRxbyte stack s c with
  | (s, none) => s
  | ((mem, priv), some p) => (stack.input mem p, priv)

/-- `slipif_poll`, with a number of rounds its loop makes at most: `none`
where they have run out. `c` is what the variable holds. -/
def slipifPoll : ℕ → σ × SlipifPriv → UInt8 → Receiver UInt8 (Option (σ × SlipifPriv))
  | 0, _, _ => return none
  | rounds + 1, s, c => do
    let (data, n) ← sioTryread (fun _ => c) 1
    if n > 0 then slipifPoll rounds (slipifRxbyteInput stack s (data 0)) (data 0)
    else return some s

end Slip

end SlipBoard
