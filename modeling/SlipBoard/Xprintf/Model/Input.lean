import SlipBoard.Xprintf.Model.Format
/-!
# Xprintf — input

`xgets` and `xatoi` of `xprintf.c`, with `_LINE_ECHO` clear. What
`xfunc_in` answers is a list of characters, behind which it answers 0. A
string is the list of its characters, and its NUL what is read behind
them.
-/

namespace SlipBoard

namespace Xprintf

/-! ## xatoi -/

/-- What `xatoi` leaves: its result, `*res`, and `*str`. -/
structure Parsed where
  ok : Bool
  res : UInt32
  str : List UInt8
  deriving DecidableEq

/-- A character of a numeral in the radix `r`. -/
def xatoiDigit (r c : UInt8) : Option UInt8 :=
  let c := if c ≥ 97 then c - 0x20 else c
  let c := c - 48
  if c ≥ 17 then
    let c := c - 7
    if c ≤ 9 then none else if c ≥ r then none else some c
  else if c ≥ r then none
  else some c

/-- The loop of `xatoi`, and the sign. -/
def xatoiLoop (s : Bool) (r : UInt8) : List UInt8 → UInt32 → Parsed
  | [], val => ⟨true, if s then 0 - val else val, []⟩
  | c :: str, val =>
    if c > 32 then
      match xatoiDigit r c with
      | none => ⟨false, 0, c :: str⟩
      | some d => xatoiLoop s r str (val * r.toUInt32 + d.toUInt32)
    else ⟨true, if s then 0 - val else val, c :: str⟩

/-- `xatoi`. -/
def xatoi (str : List UInt8) : Parsed :=
  let str := str.dropWhile (· = 32)
  let s := str.headD 0 = 45
  let str := if s then str.tail else str
  let c := str.headD 0
  if c = 48 then
    let str := str.tail
    let c := str.headD 0
    if c = 120 then xatoiLoop s 16 str.tail 0
    else if c = 98 then xatoiLoop s 2 str.tail 0
    else if c ≤ 32 then ⟨true, 0, str⟩
    else if c < 48 ∨ c > 57 then ⟨false, 0, str⟩
    else xatoiLoop s 8 str 0
  else if c < 48 ∨ c > 57 then ⟨false, 0, str⟩
  else xatoiLoop s 10 str 0

/-! ## xgets -/

/-- The loop of `xgets`, for a buffer of `len` bytes: what the buffer
holds, and where `i` is, when a line has come, or nothing at the end of
the stream. -/
def xgetsLoop {n : ℕ} (len : ℤ) : List UInt8 → Block n → ℕ → Option (Option (Block n × ℕ))
  | [], _, _ => some none
  | c :: stream, buff, i =>
    if c = 0 then some none
    else if c = 13 then some (some (buff, i))
    else if c = 8 ∧ i ≠ 0 then xgetsLoop len stream buff (i - 1)
    else if c ≥ 32 ∧ i < len - 1 then do
      let buff ← buff.store i c
      xgetsLoop len stream buff (i + 1)
    else xgetsLoop len stream buff i

/-- `xgets`: the buffer with its line, or nothing at the end of the
stream. A store outside of the buffer gives no result. -/
def xgets {n : ℕ} (stream : List UInt8) (buff : Block n) (len : ℤ) :
    Option (Option (Block n)) := do
  match ← xgetsLoop len stream buff 0 with
  | none => return none
  | some (buff, i) => do
    let buff ← buff.store i 0
    return some buff

end Xprintf

end SlipBoard
