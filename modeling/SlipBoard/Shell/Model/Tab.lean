import SlipBoard.Common.Traced
import SlipBoard.Shell.Model.Command
/-!
# Shell — TAB

`shell_tab` and `shell_getchar` of `TelNet/shell.c`. The commands that
match go into an array of ten, `match`, of which each access is an event,
inside the array or not; what is printed is an event too. A command's name
is the characters of its string, with a NUL behind them, and nothing is
read past that.

The loops have fuel. Those over a name make no more rounds than it has
characters.
-/

namespace SlipBoard

namespace Shell

/-- An event of `shell_tab`. -/
inductive TabEvent
  /-- `match[cnt]` is read or written. -/
  | matchAt (cnt : ℕ)
  /-- A text goes out. -/
  | print (text : List UInt8)
  deriving DecidableEq

/-- `name[i]`. -/
def ShellCmd.charAt (cmd : ShellCmd) (i : ℕ) : Option UInt8 := (cmd.name ++ [0])[i]?

/-- `shell_getchar`. -/
def shellGetchar (shellbuf : ShellBuf) (ascii : UInt8) : Traced TabEvent ShellBuf := do
  let b ← .lift (shellbuf.bufmem.store shellbuf.index ascii)
  let index := (shellbuf.index + 1) % commandlineMaxLen
  let b ← .lift (b.store index 0)
  let c ← .lift (b.load shellbuf.index)
  .emit (.print [c])
  return ⟨b, index⟩

/-! ## The commands that match -/

/-- `memcmp (name, input_str, input_len) == 0`, from the character `i` on.
The comparison ends at the first difference. -/
def sameFrom (cmd : ShellCmd) (b : Block commandlineMaxLen) (inputStr : ℕ) : ℕ → ℕ → Option Bool
  | 0, _ => some true
  | inputLen + 1, i => do
    let a ← cmd.charAt i
    let c ← b.load (inputStr + i)
    if a = c then sameFrom cmd b inputStr inputLen (i + 1) else return false

/-- What the loop over the commands does behind one of them: it goes on,
breaks, or returns from the function. -/
inductive TabRound
  | next (found : List Ptr)
  | stop (found : List Ptr)
  | full

section

variable (fuel : ℕ) (sh : Commands) (b : Block commandlineMaxLen) (inputStr inputLen : ℕ)
variable (str1stChar : UInt32)

/-- The body of the loop, with the commands stored in `match` so far. -/
def tabRound (node : Ptr) (found : List Ptr) : Traced TabEvent TabRound := do
  let cmd := sh.cmd node
  let cmd1stChar := cmd.ID &&& 0xfc000000
  if str1stChar = cmd1stChar then do
    let same ← .lift (sameFrom cmd b inputStr inputLen 0)
    if same then do
      .emit (.matchAt found.length)
      let found := found ++ [node]
      if found.length > 10 then return .full else return .next found
    else return .next found
  else if cmd1stChar > str1stChar then return .stop found
  else return .next found

/-- The loop: the commands in `match`, or nothing where there are more
than ten. -/
def tabLoop : ℕ → Option Ptr → List Ptr → Traced TabEvent (Option (List Ptr))
  | 0, _, _ => .lift none
  | _ + 1, none, found => return some found
  | rounds + 1, some node, found => do
    match ← tabRound sh b inputStr inputLen str1stChar node found with
    | .full => return none
    | .stop found => return some found
    | .next found => do
      let node ← .lift (avlNext fuel sh.root node)
      tabLoop rounds node found

end

/-! ## Completion -/

section

variable (sh : Commands) (found : List Ptr)

/-- `match[cnt]`. -/
def matchCmd (cnt : ℕ) : Traced TabEvent ShellCmd := do
  .emit (.matchAt cnt)
  .lift (found[cnt]?.map sh.cmd)

/-- `match[cnt]->name[i]`. -/
def matchChar (cnt i : ℕ) : Traced TabEvent UInt8 := do
  let cmd ← matchCmd sh found cnt
  .lift (cmd.charAt i)

/-- `for (char * ptr = name + input_len; *ptr; ++ptr)`. -/
def tabRest (cmd : ShellCmd) : ℕ → ℕ → ShellBuf → Traced TabEvent ShellBuf
  | 0, _, _ => .lift none
  | rounds + 1, inputLen, shellbuf => do
    let c ← .lift (cmd.charAt inputLen)
    if c = 0 then return shellbuf
    else do
      let shellbuf ← shellGetchar shellbuf c
      tabRest cmd rounds (inputLen + 1) shellbuf

/-- The loop that prints the names, `rounds` of them from `match[cnt]` on. -/
def tabPrint : ℕ → ℕ → Traced TabEvent Unit
  | 0, _ => return ()
  | rounds + 1, cnt => do
    let cmd ← matchCmd sh found cnt
    .emit (.print ([13, 10, 9] ++ cmd.name))
    tabPrint rounds (cnt + 1)

/-- The loop that compares the names at `input_len`, `rounds` of them from
`match[cnt]` on, with the first. -/
def tabSame (inputLen : ℕ) : ℕ → ℕ → Traced TabEvent Bool
  | 0, _ => return true
  | rounds + 1, cnt => do
    let first ← matchChar sh found 0 inputLen
    let c ← matchChar sh found cnt inputLen
    if first ≠ c then return false else tabSame inputLen rounds (cnt + 1)

/-- `while (1)`: the characters the names share. -/
def tabShared : ℕ → ℕ → ShellBuf → Traced TabEvent ShellBuf
  | 0, _, _ => .lift none
  | rounds + 1, inputLen, shellbuf => do
    if ← tabSame sh found inputLen (found.length - 1) 1 then do
      let c ← matchChar sh found 0 inputLen
      let shellbuf ← shellGetchar shellbuf c
      tabShared rounds (inputLen + 1) shellbuf
    else return shellbuf

/-- What is done behind the loop over the commands. -/
def tabComplete (shellInputSign : List UInt8) (inputLen : ℕ) (shellbuf : ShellBuf) :
    Traced TabEvent ShellBuf :=
  if found = [] then return shellbuf
  else if found.length = 1 then do
    let cmd ← matchCmd sh found 0
    tabRest cmd (cmd.name.length + 2) inputLen shellbuf
  else do
    tabPrint sh found found.length 0
    let line ← .lift (shellbuf.bufmem.str 0)
    .emit (.print ([13, 10] ++ shellInputSign ++ line))
    let rounds := (found.map fun node => (sh.cmd node).name.length).sum
    tabShared sh found (rounds + 2) inputLen shellbuf

end

/-- `shell_tab`. `input_len` is a `uint32_t` here. -/
def shellTab (fuel : ℕ) (shellInputSign : List UInt8) (sh : Commands) (shellbuf : ShellBuf) :
    Traced TabEvent ShellBuf := do
  let b := shellbuf.bufmem
  let (inputStr, inputLen) ← .lift (skipSpaces b (commandlineMaxLen + 1) 0 shellbuf.index)
  let inputLen := (inputLen % 2 ^ 32).toNat
  let first ← .lift (b.load inputStr)
  if first = 0 ∨ inputLen = 0 then return shellbuf
  else do
    let node ← .lift (avlFirst fuel sh.root)
    match ← tabLoop fuel sh b inputStr inputLen (first.toUInt32 <<< 26) fuel node [] with
    | none => return shellbuf
    | some found => tabComplete sh found shellInputSign inputLen shellbuf

end Shell

end SlipBoard
