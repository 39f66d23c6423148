import SlipBoard.Common.Traced
import SlipBoard.Common.Words
import Mathlib.Algebra.Order.Ring.Nat
/-!
# Telnet server — a received chunk

`telnet_check_option` and `telnet_recv_file` of `TelNet/telnet_server.c`
and `shell_input` of `TelNet/shell.c`, with the body of the loop in
`telnet_recv_pro` that calls them. A chunk is what `netbuf_data` yields:
its bytes, and whatever memory lies behind them. Each read is entered in
a log by its index, inside the chunk or not, and so is each subtraction
from `buflen`.

The loops have fuel. A round reads at the pointer it moves on, so a loop
that stays inside the chunk makes no more rounds than the chunk has
bytes.
-/

namespace SlipBoard

namespace Shell

/-- `TCP_MSS`. -/
abbrev tcpMss : ℕ := 536

abbrev telnetWill : UInt8 := 251
abbrev telnetWont : UInt8 := 252
abbrev telnetDont : UInt8 := 254
abbrev telnetIac : UInt8 := 255

/-- `TELNET_FILE_ADDR`. -/
abbrev telnetFileAddr : UInt32 := 0x8060000

/-- `TELNET_NORMAL` and `TELNET_BIN_TRAN`. -/
inductive TelnetState
  | normal
  | binTran
  deriving DecidableEq

/-- `telnet_file`: the address of the next word, and the `remain` bytes at
the start of `buf`. Bytes of `buf` behind those are written before they
are read. -/
structure TelnetFile where
  addr : UInt32
  kept : List UInt8
  kept_lt : kept.length < 4
  deriving DecidableEq

/-- `remain`. -/
def TelnetFile.remain (f : TelnetFile) : ℕ := f.kept.length

/-- An access of the code that handles a chunk. -/
inductive Access
  /-- A read of the chunk's byte `i`, by the options or by the shell. -/
  | load (i : ℕ)
  /-- `*buflen -= k`, from the value `len`. -/
  | minus (len k : ℕ)
  /-- `shell_input` is called with the length `len` for the bytes from `ptr` on. -/
  | shell (len ptr : ℕ)
  /-- A read of the chunk's byte `i`, by `telnet_recv_file` for a chunk that ends at `copyend`. -/
  | fileLoad (i copyend : ℕ)
  /-- A word of the file, and its address. -/
  | word (addr : UInt32) (bytes : List UInt8)
  deriving DecidableEq

/-- A chunk, and the memory behind it by the index from its start. -/
structure Chunk where
  data : List UInt8
  behind : ℕ → UInt8

/-- The byte at an index. -/
def Chunk.byte (c : Chunk) (i : ℕ) : UInt8 := c.data.getD i (c.behind i)

/-- What the receiving task holds between two chunks: `state`, the bytes
of `current_telnet.buf` up to its `tail`, and `telnet_file`; while a
chunk is handled, also where `recvdata` points and `datalen`. -/
structure Recv where
  ptr : ℕ
  buflen : ℕ
  state : TelnetState
  reply : List UInt8
  file : TelnetFile
  deriving DecidableEq

namespace Recv

/-- The task at its start, with nothing to send. -/
def start : Recv := ⟨0, 0, .normal, [], ⟨0, [], Nat.zero_lt_succ 3⟩⟩

variable (r : Recv)

/-- `telnet_option`. -/
def telnetOption (option value : UInt8) : Recv :=
  if r.reply.length + 3 < tcpMss then { r with reply := r.reply ++ [telnetIac, option, value] }
  else r

/-- What `if (0 == val)` does with a command. -/
def command (opt val : UInt8) : Recv :=
  if val = 0 then
    if opt = telnetWill then
      { r with state := .binTran, file := ⟨telnetFileAddr, [], Nat.zero_lt_succ 3⟩ }
    else r.telnetOption opt val
  else r

/-- The replies that leave the binary state, and the size of the file
printed behind them. `sprintf` asks for no room. -/
def leave : Recv :=
  let r := (r.telnetOption telnetWont 0).telnetOption telnetDont 0
  let size := (r.file.addr - telnetFileAddr).toInt32.toInt
  { r with reply := r.reply ++ [13, 10] ++ ascii "Get file,size=" ++ ascii (toString size) ++
      ascii " bytes" ++ [13, 10] }

/-- `*telnetbuf += 3`, `*buflen -= 3`, on a `uint16_t`. -/
def skip : Traced Access Recv :=
  ⟨[.minus r.buflen 3], some { r with ptr := r.ptr + 3, buflen := (r.buflen + 2 ^ 16 - 3) % 2 ^ 16 }⟩

end Recv

/-- A key the shell handles: Enter, TAB, Backspace, an arrow with the
`LastOrNext` it stands for, Ctrl-C, and a character for the line. -/
inductive Key
  | enter
  | tab
  | backspace
  | history (next : Bool)
  | ctrlC
  | char (c : UInt8)
  deriving DecidableEq

namespace Chunk

variable (c : Chunk)

/-- A read at an index, by the options or by the shell. -/
def load (i : ℕ) : Traced Access UInt8 := ⟨[.load i], some (c.byte i)⟩

/-! ## Options -/

/-- `iac`, `opt` and `val`, from three bytes. -/
def peek (i : ℕ) : Traced Access (UInt8 × UInt8 × UInt8) := do
  let iac ← c.load i
  let opt ← c.load (i + 1)
  let val ← c.load (i + 2)
  return (iac, opt, val)

/-- The rounds of `telnet_check_option` that began in the text state. A
command that enters the binary state does not end them. -/
def optionsNormal : ℕ → Recv → Traced Access Recv
  | 0, _ => .lift none
  | fuel + 1, r => do
    let (iac, opt, val) ← c.peek r.ptr
    if iac = telnetIac ∧ opt > 250 then do
      let r ← (r.command opt val).skip
      optionsNormal fuel r
    else return r

/-- The rounds that began in the binary state. The replies that leave it
do not end them either. -/
def optionsBin : ℕ → Recv → Traced Access Recv
  | 0, _ => .lift none
  | fuel + 1, r => do
    let (iac, opt, val) ← c.peek r.ptr
    if iac = telnetIac ∧ val = 0 ∧ opt > 250 then
      if opt = telnetWont then do
        let (iac, opt, val) ← c.peek (r.ptr + 3)
        if iac = telnetIac ∧ opt = telnetDont ∧ val = 0 then do
          let r ← r.leave.skip
          let r ← { r with state := .normal }.skip
          optionsBin fuel r
        else return r
      else do
        let r ← r.skip
        optionsBin fuel r
    else return r

/-- `telnet_check_option`. -/
def telnetCheckOption (r : Recv) : Traced Access Recv :=
  match r.state with
  | .normal => c.optionsNormal (c.data.length + 1) r
  | .binTran => c.optionsBin (c.data.length + 1) r

/-! ## Shell -/

/-- The body of the loop in `shell_input` for the character at `ptr`: the
keys, and what `len` and `ptr` have become. An arrow key takes two
characters more, whatever `len` is, a `uint8_t`. -/
def shellKey (ptr len : ℕ) (ch : UInt8) : Traced Access (List Key × ℕ × ℕ) :=
  if ch = 0x0A then return ([], ptr, len)
  else if ch = 0x0D then return ([.enter], ptr, len)
  else if ch = 0x09 then return ([.tab], ptr, len)
  else if ch = 0x08 then return ([.backspace], ptr, len)
  else if ch = 0x1b then do
    let next ← c.load (ptr + 1)
    if next = 0x5b then do
      let arrow ← c.load (ptr + 2)
      let keys := if arrow = 0x41 then [.history false]
        else if arrow = 0x42 then [.history true] else []
      return (keys, ptr + 2, (len + 2 ^ 8 - 2) % 2 ^ 8)
    else return ([], ptr, len)
  else if ch = 0x03 then return ([.ctrlC], ptr, len)
  else return ([.char ch], ptr, len)

/-- `shell_input`, with the keys in the order it handles them. -/
def shellInput : ℕ → ℕ → ℕ → Traced Access (List Key)
  | 0, _, _ => .lift none
  | fuel + 1, ptr, len =>
    if len = 0 then return []
    else do
      let ch ← c.load ptr
      if ch = 0 then return []
      else do
        let (keys, ptr, len) ← c.shellKey ptr len ch
        let rest ← shellInput fuel (ptr + 1) ((len + 2 ^ 8 - 1) % 2 ^ 8)
        return keys ++ rest

/-! ## File -/

/-- A read at an index, by `telnet_recv_file`. -/
def fileLoad (copyend i : ℕ) : Traced Access UInt8 := ⟨[.fileLoad i copyend], some (c.byte i)⟩

/-- The loop of `telnet_recv_file` over the chunk, from `copyfrom` up to
`copyend`. What stands in `telnet_file.buf` before `copyto` is `buf`. The
byte behind the one copied is looked at in any case. -/
def copyFile (copyend : ℕ) : ℕ → ℕ → List UInt8 → Traced Access (List UInt8)
  | 0, _, _ => .lift none
  | fuel + 1, copyfrom, buf =>
    if copyfrom < copyend then do
      let b ← c.fileLoad copyend copyfrom
      let next ← c.fileLoad copyend (copyfrom + 1)
      copyFile copyend fuel (if next = 0xff then copyfrom + 2 else copyfrom + 1) (buf ++ [b])
    else return buf

/-- An event that answers nothing. -/
def event (e : Access) : Traced Access Unit := ⟨[e], some ()⟩

/-- The loop over the words of `buf`. Nothing is done with a word: the
call that programs the flash is commented out. -/
def storeWords : ℕ → List UInt8 → UInt32 → Traced Access UInt32
  | 0, _, addr => return addr
  | size + 1, buf, addr => do
    event (.word addr (buf.take 4))
    storeWords size (buf.drop 4) (addr + 4)

/-- `telnet_recv_file`, for the `len` bytes from `ptr` on. -/
def telnetRecvFile (ptr len : ℕ) (file : TelnetFile) : Traced Access TelnetFile := do
  let buf ← c.copyFile (ptr + len) (len + 1) ptr file.kept
  let addr ← storeWords (buf.length / 4) buf file.addr
  return ⟨addr, buf.drop (4 * (buf.length / 4)), by rw [List.length_drop]; omega⟩

/-! ## The task -/

/-- The body of the inner loop of `telnet_recv_pro`, with the keys the
shell is given. -/
def handle (r : Recv) : Traced Access (Recv × List Key) := do
  let r ← c.telnetCheckOption { r with ptr := 0, buflen := c.data.length % 2 ^ 16 }
  if r.buflen = 0 then return (r, [])
  else match r.state with
    | .normal => do
      -- a `uint16_t` is passed for a `uint8_t`
      let len := r.buflen % 2 ^ 8
      event (.shell len r.ptr)
      let keys ← c.shellInput (c.data.length + 1) r.ptr len
      return (r, keys)
    | .binTran => do
      let file ← c.telnetRecvFile r.ptr r.buflen r.file
      return ({ r with file := file }, [])

end Chunk

end Shell

end SlipBoard
