import SlipBoard.I2c.Model.Master
/-!
# Soft I2C — the devices

Two kinds of device on the bus of the master. A `Slave` only answers: it
acknowledges as it likes in the clock behind each eight bits, lets the
line go in every other, and moves the line as it likes while the clock is
low. A `Chip` has registers that are written and read.
-/

namespace SlipBoard

namespace I2c

open TwoWire

/-- What a slave does: whether it acknowledges when the clock rises at a
tick, and where it moves the data line while the clock is low. -/
structure Slave where
  acks : ℕ → Bool
  moves : ℕ → List Bool

/-- The clock behind eight bits of a group comes next. -/
def Bus.ninth (b : Bus) : Bool := b.seen.bits.any fun bits => bits.length = 8

/-- A slave as a device. -/
def Slave.device (σ : Slave) : Device := ⟨fun b => !(b.ninth && σ.acks b.ticks), σ.moves⟩

/-! ## A device with registers -/

/-- What the device takes the next byte of the bus for. -/
inductive Mode
  | off
  | address
  | register
  | store
  | send
  deriving DecidableEq

/-- A device with registers of bytes: what it holds, the register it was
told, and where it is in it. -/
structure Chip where
  memory : UInt8 → ℕ → UInt8
  mode : Mode
  register : UInt8
  position : ℕ

namespace Chip

/-- The chip behind what the bus has spelt. -/
def step (c : Chip) : Event → Chip
  | .start => { c with mode := .address }
  | .stop => { c with mode := .off }
  | .byte value acked =>
    match c.mode with
    | .off => c
    | .address => { c with mode := if value &&& 1 = 0 then .register else .send }
    | .register => { c with mode := .store, register := value, position := 0 }
    | .store =>
      { c with
        memory := Function.update c.memory c.register
          (Function.update (c.memory c.register) c.position value)
        position := c.position + 1 }
    -- without an acknowledgement the master wants no more
    | .send => if acked then { c with position := c.position + 1 } else { c with mode := .off }

/-- Behind a sequence of events. -/
def after (c : Chip) (es : List Event) : Chip := es.foldl step c

/-- What the chip puts on the line, where these bits of a group have been
read: a bit of what it sends, and otherwise an acknowledgement behind
every eight. -/
def answer (c : Chip) (bits : List Bool) : Bool :=
  match c.mode with
  | .off => true
  | .send => bits.length = 8 || (c.memory c.register c.position).toNat.testBit (7 - bits.length)
  | _ => bits.length ≠ 8

/-- What the chip has become. -/
def now (c : Chip) (b : Bus) : Chip := c.after (Decoder.idle.events b.levels)

/-- The chip as a device. Without a START it lets the line go. -/
def device (c : Chip) (moves : ℕ → List Bool) : Device :=
  ⟨fun b => b.seen.bits.all (c.now b).answer, moves⟩

end Chip

end I2c

end SlipBoard
