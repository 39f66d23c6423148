import Mathlib.Logic.Function.Basic
import SlipBoard.Common.TwoWire
/-!
# Soft I2C — the master

`soft_i2c.c` on a bus of two wired-AND lines, with a device that may put
a level on the data line at every rise of the clock, and may move the
line while the clock is low. Every call of a pin helper is one tick, and
the levels the lines go through are logged. Memory behind a pointer is a
function of the offset.
-/

namespace SlipBoard

namespace I2c

open TwoWire

/-- The outputs of the master, that of the device, the ticks so far, and
two logs: the levels of the lines, and of each attempt of `i2c_write` or
`i2c_read` the levels before it and its own. -/
structure Bus where
  scl : Bool
  sda : Bool
  slave : Bool
  ticks : ℕ
  levels : List Level
  attempts : List (List Level × List Level)

namespace Bus

/-- Both lines high. -/
def idle : Bus := ⟨true, true, true, 0, [], []⟩

variable (b : Bus)

/-- The data line, low when one of the two pulls it. -/
def level : Level := ⟨b.scl, b.sda && b.slave⟩

/-- What the bus has spelt so far. -/
def seen : Decoder := Decoder.idle.feed b.levels

/-- The levels are logged. -/
def sample : Bus := { b with levels := b.levels ++ [b.level] }

/-- The device moves the data line. -/
def slaveMoves (b : Bus) (moves : List Bool) : Bus :=
  moves.foldl (fun b v => { b with slave := v }.sample) b

end Bus

/-- What a device does: the level it puts on the data line when the clock
rises, and where it moves the line while the clock is low. -/
structure Device where
  drive : Bus → Bool
  moves : ℕ → List Bool

/-- `max_repeat`. -/
abbrev maxRepeat : ℕ := 3

namespace Device

variable (δ : Device)

/-- `i2c_Wait`, which a pin helper ends with: while the clock is low the
device moves. -/
def i2cWait (b : Bus) : Bus :=
  let b := if b.scl then b else b.slaveMoves (δ.moves b.ticks)
  { b with ticks := b.ticks + 1 }

/-- `SetLowSDA` and `SetHighSDA`. -/
def setSDA (b : Bus) (v : Bool) : Bus := δ.i2cWait { b with sda := v }.sample

/-- `SetLowSCL`. -/
def setLowSCL (b : Bus) : Bus := δ.i2cWait { b with scl := false }.sample

/-- `SetHighSCL`. Before the clock rises the device puts its level on the
line. -/
def setHighSCL (b : Bus) : Bus :=
  let b := if b.scl then b else { b with slave := δ.drive b }.sample
  δ.i2cWait { b with scl := true }.sample

/-- `i2c_start`. -/
def i2cStart (b : Bus) : Bus :=
  let b := δ.setSDA (δ.setHighSCL b) true
  let b := δ.setSDA (δ.setHighSCL b) false
  δ.setSDA (δ.setLowSCL b) true

/-- `i2c_stop`. -/
def i2cStop (b : Bus) : Bus :=
  let b := δ.setSDA (δ.setLowSCL b) false
  let b := δ.setSDA (δ.setHighSCL b) false
  δ.setSDA (δ.setHighSCL b) true

/-- The nine clocks of `I2C2_ResetBus`. -/
def clocks : ℕ → Bus → Bus
  | 0, b => b
  | n + 1, b => δ.setHighSCL (δ.setLowSCL (clocks n b))

/-- `I2C2_ResetBus`. -/
def resetBus (b : Bus) : Bus :=
  let b := δ.setSDA (δ.setHighSCL b) true
  δ.i2cStart (δ.clocks 9 (δ.i2cStart b))

/-- The bits of `_i2c_write`. -/
def writeBits : ℕ → UInt8 → Bus → Bus
  | 0, _, b => b
  | n + 1, a, b =>
    writeBits n (a <<< 1) (δ.setHighSCL (δ.setSDA (δ.setLowSCL b) (a &&& 0x80 ≠ 0)))

/-- `_i2c_write`, and whether it returns `ACK`. -/
def i2cWriteByte (a : UInt8) (b : Bus) : Bus × Bool :=
  let b := δ.setLowSCL (δ.writeBits 8 a b)
  let b := δ.setHighSCL (δ.setSDA b true)
  (δ.setLowSCL b, !b.level.sda)

/-- The bits of `_i2c_read`. -/
def readBits : ℕ → UInt8 → Bus → Bus × UInt8
  | 0, caracter, b => (b, caracter)
  | n + 1, caracter, b =>
    let caracter := caracter <<< 1
    let b := δ.setHighSCL b
    let caracter := if b.level.sda then caracter + 1 else caracter
    readBits n caracter (δ.setLowSCL b)

/-- `_i2c_read`. -/
def i2cReadByte (ack : Bool) (b : Bus) : Bus × UInt8 :=
  let b := δ.setSDA (δ.setLowSCL b) true
  let (b, caracter) := δ.readBits 8 0 b
  let b := if ack then δ.setSDA b false else b
  (δ.setLowSCL (δ.setHighSCL b), caracter)

/-- The loop of `i2c_write` over the data, the last byte first. -/
def writeData (data : List UInt8) : ℕ → Bus × Bool → Bus × Bool
  | 0, r => r
  | n + 1, (b, state) =>
    let (b, ack) := δ.i2cWriteByte (data.getD n 0) b
    writeData data n (b, state && ack)

/-- An attempt of `i2c_write`, which is logged. -/
def attempt (hwAddress regAddress : UInt8) (data : List UInt8) (b : Bus) : Bus × Bool :=
  let first := b.levels
  let (b, ackHw) := δ.i2cWriteByte (hwAddress ||| 0) (δ.i2cStart b)
  let (b, ackReg) := δ.i2cWriteByte regAddress b
  let (b, state) := δ.writeData data data.length (b, true && ackHw && ackReg)
  let b := δ.i2cStop b
  ({ b with attempts := b.attempts ++ [(first, b.levels.drop first.length)] }, state)

/-- The attempts of `i2c_write`. -/
def writeLoop (hwAddress regAddress : UInt8) (data : List UInt8) : ℕ → Bus × Bool → Bus × Bool
  | 0, r => r
  | n + 1, (b, _) =>
    let (b, state) := δ.attempt hwAddress regAddress data b
    if state then (b, state) else writeLoop hwAddress regAddress data n (δ.resetBus b, state)

/-- `i2c_write`. -/
def i2cWrite (hwAddress regAddress : UInt8) (data : List UInt8) (b : Bus) : Bus × Bool :=
  δ.writeLoop hwAddress regAddress data maxRepeat (b, false)

/-- The loop of `i2c_read` over the data, from index `i` on. -/
def readData (size : UInt32) : ℕ → UInt32 → Bus × (ℕ → UInt8) → Bus × (ℕ → UInt8)
  | 0, _, r => r
  | left + 1, i, (b, data) =>
    let (b, v) := δ.i2cReadByte true b
    readData size left (i + 1) (b, Function.update data (size - i - 1).toNat v)

/-- An attempt of `i2c_read`, which is logged. -/
def readAttempt (hwAddress regAddress : UInt8) (size : UInt32) (data : ℕ → UInt8) (b : Bus) :
    Bus × (ℕ → UInt8) × Bool :=
  let first := b.levels
  let (b, ackHw) := δ.i2cWriteByte (hwAddress ||| 0) (δ.i2cStart b)
  let (b, ackReg) := δ.i2cWriteByte regAddress b
  let (b, ackRead) := δ.i2cWriteByte (hwAddress ||| 1) (δ.i2cStart b)
  let (b, data) := δ.readData size (size - 1).toNat 0 (b, data)
  let (b, v) := δ.i2cReadByte false b
  let b := δ.i2cStop b
  ({ b with attempts := b.attempts ++ [(first, b.levels.drop first.length)] },
    Function.update data 0 v, true && ackHw && ackReg && ackRead)

/-- The attempts of `i2c_read`. -/
def readLoop (hwAddress regAddress : UInt8) (size : UInt32) :
    ℕ → Bus × (ℕ → UInt8) × Bool → Bus × (ℕ → UInt8) × Bool
  | 0, r => r
  | n + 1, (b, data, _) =>
    let (b, data, state) := δ.readAttempt hwAddress regAddress size data b
    if state then (b, data, state)
    else readLoop hwAddress regAddress size n (δ.resetBus b, data, state)

/-- `i2c_read`. -/
def i2cRead (hwAddress regAddress : UInt8) (size : UInt32) (data : ℕ → UInt8) (b : Bus) :
    Bus × (ℕ → UInt8) × Bool :=
  δ.readLoop hwAddress regAddress size maxRepeat (b, data, false)

end Device

end I2c

end SlipBoard
