import Mathlib.Data.List.Basic
/-!
# Two-wire transactions

What the levels of a clock and a data line mean by the rules of I2C. A
fall of data while the clock is high is a START, a rise a STOP; behind a
START a bit is read at each rise of the clock, and nine of them are a
byte and its acknowledgement. `events` reads a sequence of levels from a
decoder that has seen the levels before, and drops an incomplete group
at the next START or STOP.
-/

namespace SlipBoard

namespace TwoWire

/-- The levels of the lines. -/
structure Level where
  scl : Bool
  sda : Bool
  deriving DecidableEq

/-- What the levels spell. -/
inductive Event
  | start
  | stop
  | byte (value : UInt8) (acked : Bool)
  deriving DecidableEq

/-- The last levels seen, and the bits of the group that is open; `none`
without a START. -/
structure Decoder where
  level : Level
  bits : Option (List Bool)
  deriving DecidableEq

/-- The number eight bits spell, the highest first. -/
def ofBits (bits : List Bool) : UInt8 := bits.foldl (fun v b => 2 * v + if b then 1 else 0) 0

namespace Decoder

/-- Both lines high, and no START seen. -/
def idle : Decoder := ⟨⟨true, true⟩, none⟩

/-- The open group behind the next levels, and what they spell. -/
def react (d : Decoder) (l : Level) : Option (List Bool) × List Event :=
  match d.level.scl, l.scl with
  | true, true =>
    match d.level.sda, l.sda with
    | true, false => (some [], [.start])
    | false, true => (none, [.stop])
    | _, _ => (d.bits, [])
  | false, true =>
    match d.bits with
    | none => (none, [])
    | some bits =>
      if bits.length = 8 then (some [], [.byte (ofBits bits) (!l.sda)])
      else (some (bits ++ [l.sda]), [])
  | _, false => (d.bits, [])

/-- The decoder behind the next levels. -/
def next (d : Decoder) (l : Level) : Decoder := ⟨l, (d.react l).1⟩

/-- The decoder behind a sequence of levels. -/
def feed (d : Decoder) (ls : List Level) : Decoder := ls.foldl next d

/-- **What a sequence of levels spells**: the events of each level behind
the ones in front of it, in their order. -/
def events : Decoder → List Level → List Event
  | _, [] => []
  | d, l :: ls => (d.react l).2 ++ events (d.next l) ls

variable {d : Decoder} {l : Level} {ls ls' : List Level}

@[simp] theorem feed_nil : d.feed [] = d := rfl

@[simp] theorem feed_append : d.feed (ls ++ ls') = (d.feed ls).feed ls' := List.foldl_append

theorem events_append : d.events (ls ++ ls') = d.events ls ++ (d.feed ls).events ls' := by
  induction ls generalizing d with
  | nil => rfl
  | cons l ls ih =>
    rw [List.cons_append, events, events, ih, List.append_assoc]
    rfl

@[simp] theorem events_singleton : d.events [l] = (d.react l).2 := List.append_nil _

/-- While the clock is low nothing is spelt, however SDA moves. -/
theorem react_low (h : l.scl = false) : d.react l = (d.bits, []) := by
  unfold react
  rw [h]
  cases d.level.scl <;> rfl

/-- Levels that stay as they are spell nothing. -/
theorem react_same (h : d.level = l) : d.react l = (d.bits, []) := by
  unfold react
  rw [h]
  obtain ⟨scl, sda⟩ := l
  cases scl <;> cases sda <;> rfl

theorem react_start (h : d.level = ⟨true, true⟩) : d.react ⟨true, false⟩ = (some [], [.start]) := by
  rw [react, h]

theorem react_stop (h : d.level = ⟨true, false⟩) : d.react ⟨true, true⟩ = (none, [.stop]) := by
  rw [react, h]

/-- A bit of a group that is not yet full. -/
theorem react_bit {bits : List Bool} (h : d.level.scl = false) (hbits : d.bits = some bits)
    (hlen : bits.length ≠ 8) (sda : Bool) :
    d.react ⟨true, sda⟩ = (some (bits ++ [sda]), []) := by
  rw [react, h, hbits]
  exact if_neg hlen

/-- The ninth bit ends a group: its byte is spelt, acknowledged where SDA is
low. -/
theorem react_ack {bits : List Bool} (h : d.level.scl = false) (hbits : d.bits = some bits)
    (hlen : bits.length = 8) (sda : Bool) :
    d.react ⟨true, sda⟩ = (some [], [.byte (ofBits bits) (!sda)]) := by
  rw [react, h, hbits]
  exact if_pos hlen

end Decoder

end TwoWire

end SlipBoard
