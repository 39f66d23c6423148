import SlipBoard.Common.Block
import SlipBoard.Shell.Model.Index
import Mathlib.Algebra.Order.Ring.Nat
import Mathlib.Logic.Function.Basic
/-!
# Shell — commands

`_shell_register`, `shell_parse` and `shell_record` of `TelNet/shell.c`.
A command is told by its `ID`, 32 bits of sums over its name, and the
first word of a line by the same sums: the names are not compared.

A character is an unsigned byte. `puts` of a `struct shell_buf` is left
out, and what `printk` prints is part of the outcome.
-/

namespace SlipBoard

namespace Shell

/-- `COMMANDLINE_MAX_LEN`. -/
abbrev commandlineMaxLen : ℕ := 36

/-- `COMMANDLINE_MAX_RECORD`. -/
abbrev commandlineMaxRecord : ℕ := 4

instance : NeZero commandlineMaxRecord := ⟨Nat.succ_ne_zero 3⟩

/-! ## Sums -/

set_option maxRecDepth 2000 in
/-- `F_CRC8_Table`, for the polynomial `x^8+x^5+x^4+1`. -/
def fCrc8Table : Vector UInt8 256 := #v[
  0x00, 0x31, 0x62, 0x53, 0xc4, 0xf5, 0xa6, 0x97, 0xb9, 0x88, 0xdb, 0xea, 0x7d, 0x4c, 0x1f, 0x2e,
  0x43, 0x72, 0x21, 0x10, 0x87, 0xb6, 0xe5, 0xd4, 0xfa, 0xcb, 0x98, 0xa9, 0x3e, 0x0f, 0x5c, 0x6d,
  0x86, 0xb7, 0xe4, 0xd5, 0x42, 0x73, 0x20, 0x11, 0x3f, 0x0e, 0x5d, 0x6c, 0xfb, 0xca, 0x99, 0xa8,
  0xc5, 0xf4, 0xa7, 0x96, 0x01, 0x30, 0x63, 0x52, 0x7c, 0x4d, 0x1e, 0x2f, 0xb8, 0x89, 0xda, 0xeb,
  0x3d, 0x0c, 0x5f, 0x6e, 0xf9, 0xc8, 0x9b, 0xaa, 0x84, 0xb5, 0xe6, 0xd7, 0x40, 0x71, 0x22, 0x13,
  0x7e, 0x4f, 0x1c, 0x2d, 0xba, 0x8b, 0xd8, 0xe9, 0xc7, 0xf6, 0xa5, 0x94, 0x03, 0x32, 0x61, 0x50,
  0xbb, 0x8a, 0xd9, 0xe8, 0x7f, 0x4e, 0x1d, 0x2c, 0x02, 0x33, 0x60, 0x51, 0xc6, 0xf7, 0xa4, 0x95,
  0xf8, 0xc9, 0x9a, 0xab, 0x3c, 0x0d, 0x5e, 0x6f, 0x41, 0x70, 0x23, 0x12, 0x85, 0xb4, 0xe7, 0xd6,
  0x7a, 0x4b, 0x18, 0x29, 0xbe, 0x8f, 0xdc, 0xed, 0xc3, 0xf2, 0xa1, 0x90, 0x07, 0x36, 0x65, 0x54,
  0x39, 0x08, 0x5b, 0x6a, 0xfd, 0xcc, 0x9f, 0xae, 0x80, 0xb1, 0xe2, 0xd3, 0x44, 0x75, 0x26, 0x17,
  0xfc, 0xcd, 0x9e, 0xaf, 0x38, 0x09, 0x5a, 0x6b, 0x45, 0x74, 0x27, 0x16, 0x81, 0xb0, 0xe3, 0xd2,
  0xbf, 0x8e, 0xdd, 0xec, 0x7b, 0x4a, 0x19, 0x28, 0x06, 0x37, 0x64, 0x55, 0xc2, 0xf3, 0xa0, 0x91,
  0x47, 0x76, 0x25, 0x14, 0x83, 0xb2, 0xe1, 0xd0, 0xfe, 0xcf, 0x9c, 0xad, 0x3a, 0x0b, 0x58, 0x69,
  0x04, 0x35, 0x66, 0x57, 0xc0, 0xf1, 0xa2, 0x93, 0xbd, 0x8c, 0xdf, 0xee, 0x79, 0x48, 0x1b, 0x2a,
  0xc1, 0xf0, 0xa3, 0x92, 0x05, 0x34, 0x67, 0x56, 0x78, 0x49, 0x1a, 0x2b, 0xbc, 0x8d, 0xde, 0xef,
  0x82, 0xb3, 0xe0, 0xd1, 0x46, 0x77, 0x24, 0x15, 0x3b, 0x0a, 0x59, 0x68, 0xff, 0xce, 0x9d, 0xac]

set_option maxRecDepth 2000 in
/-- `B_CRC8_Table`, for the same polynomial the other way round. -/
def bCrc8Table : Vector UInt8 256 := #v[
  0x00, 0x5e, 0xbc, 0xe2, 0x61, 0x3f, 0xdd, 0x83, 0xc2, 0x9c, 0x7e, 0x20, 0xa3, 0xfd, 0x1f, 0x41,
  0x9d, 0xc3, 0x21, 0x7f, 0xfc, 0xa2, 0x40, 0x1e, 0x5f, 0x01, 0xe3, 0xbd, 0x3e, 0x60, 0x82, 0xdc,
  0x23, 0x7d, 0x9f, 0xc1, 0x42, 0x1c, 0xfe, 0xa0, 0xe1, 0xbf, 0x5d, 0x03, 0x80, 0xde, 0x3c, 0x62,
  0xbe, 0xe0, 0x02, 0x5c, 0xdf, 0x81, 0x63, 0x3d, 0x7c, 0x22, 0xc0, 0x9e, 0x1d, 0x43, 0xa1, 0xff,
  0x46, 0x18, 0xfa, 0xa4, 0x27, 0x79, 0x9b, 0xc5, 0x84, 0xda, 0x38, 0x66, 0xe5, 0xbb, 0x59, 0x07,
  0xdb, 0x85, 0x67, 0x39, 0xba, 0xe4, 0x06, 0x58, 0x19, 0x47, 0xa5, 0xfb, 0x78, 0x26, 0xc4, 0x9a,
  0x65, 0x3b, 0xd9, 0x87, 0x04, 0x5a, 0xb8, 0xe6, 0xa7, 0xf9, 0x1b, 0x45, 0xc6, 0x98, 0x7a, 0x24,
  0xf8, 0xa6, 0x44, 0x1a, 0x99, 0xc7, 0x25, 0x7b, 0x3a, 0x64, 0x86, 0xd8, 0x5b, 0x05, 0xe7, 0xb9,
  0x8c, 0xd2, 0x30, 0x6e, 0xed, 0xb3, 0x51, 0x0f, 0x4e, 0x10, 0xf2, 0xac, 0x2f, 0x71, 0x93, 0xcd,
  0x11, 0x4f, 0xad, 0xf3, 0x70, 0x2e, 0xcc, 0x92, 0xd3, 0x8d, 0x6f, 0x31, 0xb2, 0xec, 0x0e, 0x50,
  0xaf, 0xf1, 0x13, 0x4d, 0xce, 0x90, 0x72, 0x2c, 0x6d, 0x33, 0xd1, 0x8f, 0x0c, 0x52, 0xb0, 0xee,
  0x32, 0x6c, 0x8e, 0xd0, 0x53, 0x0d, 0xef, 0xb1, 0xf0, 0xae, 0x4c, 0x12, 0x91, 0xcf, 0x2d, 0x73,
  0xca, 0x94, 0x76, 0x28, 0xab, 0xf5, 0x17, 0x49, 0x08, 0x56, 0xb4, 0xea, 0x69, 0x37, 0xd5, 0x8b,
  0x57, 0x09, 0xeb, 0xb5, 0x36, 0x68, 0x8a, 0xd4, 0x95, 0xcb, 0x29, 0x77, 0xf4, 0xaa, 0x48, 0x16,
  0xe9, 0xb7, 0x55, 0x0b, 0x88, 0xd6, 0x34, 0x6a, 0x2b, 0x75, 0x97, 0xc9, 0x4a, 0x14, 0xf6, 0xa8,
  0x74, 0x2a, 0xc8, 0x96, 0x15, 0x4b, 0xa9, 0xf7, 0xb6, 0xe8, 0x0a, 0x54, 0xd7, 0x89, 0x6b, 0x35]

/-- `union uncmd`, from the least bits on. -/
structure UnCmd where
  crc2 : BitVec 8
  crc1 : BitVec 8
  sum : BitVec 5
  len : BitVec 5
  firstChar : BitVec 6
  deriving DecidableEq

/-- The fields as one word. -/
def UnCmd.ID (u : UnCmd) : UInt32 :=
  .ofBitVec (u.firstChar ++ u.len ++ u.sum ++ u.crc1 ++ u.crc2)

/-- `len`, `sum`, `fcrc8` and `bcrc8` of the two functions. What the CRCs
hold is read from the tables. -/
structure Sums where
  len : UInt32
  sum : UInt32
  fcrc8 : UInt8
  bcrc8 : UInt8
  deriving DecidableEq

namespace Sums

/-- The sums over no characters. -/
def zero : Sums := ⟨0, 0, 0, 0⟩

/-- The body of the loops. -/
def add (a : Sums) (c : UInt8) : Sums :=
  ⟨a.len + 1, a.sum + c.toUInt32, fCrc8Table.get (a.fcrc8 ^^^ c).toFin,
    bCrc8Table.get (a.bcrc8 ^^^ c).toFin⟩

/-- The sums in their fields, as many bits of each as fit. -/
def unCmd (a : Sums) (first : UInt8) : UnCmd :=
  ⟨a.bcrc8.toBitVec, a.fcrc8.toBitVec, a.sum.toBitVec.setWidth 5, a.len.toBitVec.setWidth 5,
    first.toBitVec.setWidth 6⟩

end Sums

/-! ## Commands -/

/-- `struct shell_cmd`, less its node in the tree. -/
structure ShellCmd where
  ID : UInt32
  name : List UInt8
  Func : Ptr

/-- `SHELL_CMD_LEN`. -/
def ShellCmd.len (cmd : ShellCmd) : ℕ := ((cmd.ID >>> 21) &&& 0x001F).toNat

/-- `shell_history`. -/
structure History where
  buf : Fin commandlineMaxRecord → Block commandlineMaxLen
  read : Fin commandlineMaxRecord
  write : Fin commandlineMaxRecord

/-- `struct shell_buf`: the line, and its length so far. -/
structure ShellBuf where
  bufmem : Block commandlineMaxLen
  index : ℕ

/-- `shell_root` with the commands its nodes are in, and `shell_history`. -/
structure Commands where
  cmd : Ptr → ShellCmd
  root : Avl
  history : History

/-- The IDs the tree is ordered by. -/
def Commands.ID (sh : Commands) (p : Ptr) : UInt32 := (sh.cmd p).ID

/-! ## Registration -/

/-- A call of `_shell_register`. -/
structure Registration where
  cmdName : List UInt8
  cmdFunc : Ptr
  newcmd : Ptr
  deriving DecidableEq

/-- The loop of `_shell_register`, up to the NUL behind the name. -/
def nameSums : List UInt8 → Sums → Sums
  | [], a => a
  | c :: str, a => if c = 0 then a else nameSums str (a.add c)

/-- The `ID` that `_shell_register` makes of a name. -/
def nameID (cmdName : List UInt8) : UInt32 :=
  ((nameSums cmdName .zero).unCmd (cmdName.headD 0)).ID

/-- `_shell_register`. That the ID is taken already is not told. -/
def shellRegister (fuel : ℕ) (sh : Commands) (r : Registration) : Option Commands := do
  let cmd := Function.update sh.cmd r.newcmd ⟨nameID r.cmdName, r.cmdName, r.cmdFunc⟩
  let (root, _) ← shellInsertCmd (fun p => (cmd p).ID) fuel sh.root r.newcmd
  return { sh with cmd := cmd, root := root }

/-! ## A line -/

/-- `shell_record`: the line goes into the row `write`, of which the
address is returned. -/
def History.record (h : History) (shellbuf : ShellBuf) :
    Option (History × Fin commandlineMaxRecord) := do
  let input ← shellbuf.bufmem.read 0 shellbuf.index
  let history ← (h.buf h.write).write 0 input
  let history ← history.store shellbuf.index 0
  return (⟨Function.update h.buf h.write history, h.write + 1, h.write + 1⟩, h.write)

/-- What `shell_parse` ends with: nothing, a line printed, or a command's
`Func` called, with the row of the history and the place in it that `arg`
points at. -/
inductive Outcome
  | nothing
  | noReply (line : List UInt8)
  | call (cmdmatch Func : Ptr) (record : Fin commandlineMaxRecord) (arg : ℕ)
  deriving DecidableEq

/-- `while (*input_str == ' ')`: what `input_str` and `input_len` become.
A loop over the line makes no more rounds than it has cells. -/
def skipSpaces (b : Block commandlineMaxLen) : ℕ → ℕ → ℤ → Option (ℕ × ℤ)
  | 0, _, _ => none
  | fuel + 1, inputStr, inputLen => do
    let c ← b.load inputStr
    if c = 32 then skipSpaces b fuel (inputStr + 1) (inputLen - 1)
    else return (inputStr, inputLen)

/-- The loop over the word at `inputStr`. -/
def wordSums (b : Block commandlineMaxLen) : ℕ → ℕ → Sums → Option Sums
  | 0, _, _ => none
  | fuel + 1, inputStr, a => do
    let c ← b.load inputStr
    if c ≠ 0 ∧ c ≠ 32 then wordSums b fuel (inputStr + 1) (a.add c)
    else return a

/-- `shell_parse`. -/
def shellParse (fuel : ℕ) (sh : Commands) (shellbuf : ShellBuf) :
    Option (Commands × ShellBuf × Outcome) := do
  let b := shellbuf.bufmem
  let (inputStr, inputLen) ← skipSpaces b (commandlineMaxLen + 1) 0 shellbuf.index
  let first ← b.load inputStr
  let parseend := { shellbuf with index := 0 }
  if first = 0 ∨ inputLen = 0 then return (sh, parseend, .nothing)
  else do
    let sums ← wordSums b (commandlineMaxLen + 1) inputStr .zero
    match ← shellSearchCmd sh.ID fuel sh.root (sums.unCmd first).ID with
    | some cmdmatch => do
      let (history, record) ← sh.history.record shellbuf
      let cmd := sh.cmd cmdmatch
      return ({ sh with history := history }, parseend, .call cmdmatch cmd.Func record cmd.len)
    | none => do
      let line ← b.str 0
      return (sh, parseend,
        .noReply ([13, 10, 13, 10, 9] ++ ascii "no reply:" ++ line ++ [13, 10]))

end Shell

end SlipBoard
