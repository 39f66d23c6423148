import SlipBoard.Common.Block
/-!
# Xprintf — formatted output

`xputc`, `xputs`, `xvprintf` and `xsprintf` of `xprintf.c`, with
`_CR_CRLF` set. `xsprintf` points `outptr` into a buffer, and a store
outside of it gives no result.

A format is a string without its NUL, an argument a string or 32 bits: an
`int`, an `unsigned int` and a `long` are of one size. The widths of the
formats stay far below `2^32`, where `j` would wrap.
-/

namespace SlipBoard

namespace Xprintf

/-! ## Characters -/

/-- `outptr`: the buffer it points into, and where. -/
structure Out (n : ℕ) where
  buff : Block n
  outptr : ℕ

variable {n : ℕ}

/-- `*outptr++ = c`. -/
def Out.put (o : Out n) (c : UInt8) : Option (Out n) := do
  let buff ← o.buff.store o.outptr c
  return ⟨buff, o.outptr + 1⟩

/-- `xputc`. It calls itself with `\r` in front of a line feed. -/
def xputc (o : Out n) (c : UInt8) : Option (Out n) := do
  let o ← if c = 10 then o.put 13 else some o
  o.put c

/-- `xputs`. -/
def xputs (o : Out n) (str : List UInt8) : Option (Out n) := str.foldlM xputc o

/-! ## Formats -/

/-- An argument of `xvprintf`. -/
inductive Arg
  | str (p : List UInt8)
  | int (v : UInt32)
  deriving DecidableEq

/-- `f` and `w`: the flags and the width of a sequence. -/
structure Field where
  zero : Bool
  minus : Bool
  width : ℕ

/-- The digits of a width. -/
def width : ℕ → List UInt8 → ℕ × List UInt8
  | w, [] => (w, [])
  | w, c :: fmt => if 48 ≤ c ∧ c ≤ 57 then width (w * 10 + (c.toNat - 48)) fmt else (w, c :: fmt)

/-- The sequence behind a `%`, up to its type. An `l` makes no
difference. -/
def field (fmt : List UInt8) : Field × List UInt8 :=
  let zero := fmt.head? = some 48
  let minus := fmt.head? = some 45
  let (w, fmt) := width 0 (if zero ∨ minus then fmt.tail else fmt)
  let long := fmt.head? = some 108 ∨ fmt.head? = some 76
  (⟨zero, minus, w⟩, if long then fmt.tail else fmt)

/-- The type of a sequence. -/
inductive Kind
  | string
  | char
  | number (r : ℕ) (signed : Bool)
  | unknown
  deriving DecidableEq

/-- The switch over `d`, which is `c` in upper case. -/
def kind (c : UInt8) : Kind :=
  let d := if c ≥ 97 then c - 32 else c
  if d = 83 then .string
  else if d = 67 then .char
  else if d = 66 then .number 2 false
  else if d = 79 then .number 8 false
  else if d = 68 then .number 10 true
  else if d = 85 then .number 10 false
  else if d = 88 then .number 16 false
  else .unknown

/-- The digits of `v`, the last of them first, as `s` takes them. -/
def digits (r : ℕ) (c : UInt8) : ℕ → ℕ → List UInt8
  | 0, _ => []
  | left + 1, v =>
    let d := v % r
    let d := if d > 9 then d + (if c = 120 then 0x27 else 0x07) else d
    UInt8.ofNat (d + 48) :: if v / r ≠ 0 then digits r c left (v / r) else []

/-- `s`, read from its end: the numeral with its sign. -/
def numeral (r : ℕ) (signed : Bool) (c : UInt8) (v : UInt32) : List UInt8 :=
  let minus := signed && v &&& 0x80000000 ≠ 0
  let s := digits r c 16 (if minus then 0 - v else v).toNat
  (if minus then s ++ [45] else s).reverse

/-- A text, filled up to the width. -/
def Field.fill (f : Field) (d : UInt8) (text : List UInt8) : List UInt8 :=
  if f.minus then text ++ List.replicate (f.width - text.length) 32
  else List.replicate (f.width - text.length) d ++ text

/-- `xvprintf`: the characters it hands to `xputc`, in their order. An
argument that is not there, or not of the type, gives no result. -/
def xvprintf : ℕ → List UInt8 → List Arg → Option (List UInt8)
  | 0, _, _ => none
  | _ + 1, [], _ => some []
  | fuel + 1, c :: fmt, arp =>
    if c ≠ 37 then do
      let rest ← xvprintf fuel fmt arp
      return c :: rest
    else
      let (f, fmt) := field fmt
      match fmt with
      | [] => some []
      | c :: fmt =>
        match kind c, arp with
        | .string, .str p :: arp => do
          let rest ← xvprintf fuel fmt arp
          return f.fill 32 p ++ rest
        | .char, .int v :: arp => do
          let rest ← xvprintf fuel fmt arp
          return v.toUInt8 :: rest
        | .number r signed, .int v :: arp => do
          let rest ← xvprintf fuel fmt arp
          return f.fill (if f.zero then 48 else 32) (numeral r signed c v) ++ rest
        | .unknown, arp => do
          let rest ← xvprintf fuel fmt arp
          return c :: rest
        | _, _ => none

/-- `xsprintf`. -/
def xsprintf (buff : Block n) (fmt : List UInt8) (arp : List Arg) : Option (Block n) := do
  let text ← xvprintf (fmt.length + 1) fmt arp
  let o ← xputs ⟨buff, 0⟩ text
  o.buff.store o.outptr 0

end Xprintf

end SlipBoard
