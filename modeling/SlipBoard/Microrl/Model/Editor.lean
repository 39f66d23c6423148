import SlipBoard.Microrl.Model.History
/-!
# Line editor — the keys

`microrl_insert_char` and what it calls, on a state that is `microrl_t`
with two logs beside it: what has been passed to `print`, and the calls
of `execute`. A function answers `none` where the code would access a
cell outside an array. `int` fields that the code keeps above zero are
natural numbers; where it subtracts two of them, the difference is
`none` below zero.

The completion callback is `complet` over its table of names; what an
executed command does is not modelled.
-/

namespace SlipBoard

namespace Microrl

/-- `_COMMAND_TOKEN_NMB`. -/
abbrev commandTokenNmb : ℕ := 10

/-- The codes of `escape_seq`; a fresh `microrl_t` holds none of them. -/
inductive EscSeq
  | unset
  | bracket
  | home
  | «end»
  deriving DecidableEq

/-- A call of `execute`: the pointers into `cmdline`, as offsets, and
the array at that moment. -/
structure Call where
  argc : ℕ
  argv : List ℕ
  cmdline : Block commandLineLen

/-- `microrl_t`. -/
structure MicrorlT where
  escapeSeq : EscSeq
  escape : Bool
  ringHist : RingHistory
  promptStr : List UInt8
  cmdline : Block commandLineLen
  cmdlen : ℕ
  cursor : ℕ
  /-- Whether the callback is set. -/
  execute : Bool
  /-- The names `complet` knows, where the callback is set. -/
  getCompletion : Option (List (List UInt8))
  terminalHasEcho : Bool
  promptLen : ℕ
  /-- The bytes printed. -/
  out : List UInt8
  /-- The calls of `execute`. -/
  calls : List Call

/-- A difference of two `int`s, where it is not negative. -/
def diff (a b : ℕ) : Option ℕ := if b ≤ a then some (a - b) else none

/-! ## Tokens -/

/-- `while (p (cmdline [ind]) && (ind < limit)) ind++`. -/
def scan (p : UInt8 → Bool) (cmdline : Block commandLineLen) (limit : ℕ) : ℕ → ℕ → Option ℕ
  | 0, _ => none
  | fuel + 1, ind => do
    let c ← cmdline.load ind
    if p c ∧ ind < limit then scan p cmdline limit fuel (ind + 1)
    else return ind

/-- The rounds of `split`, with the tokens found so far. Every round but
the last stores one, and the tenth stored ends the loop. -/
def splitFrom (cmdline : Block commandLineLen) (limit : ℕ) :
    ℕ → ℕ → List ℕ → Option (Option ℕ × List ℕ)
  | 0, _, _ => none
  | fuel + 1, ind, tkn => do
    let ind ← scan (· = 0) cmdline limit (commandLineLen + 1) ind
    if ¬ ind < limit then return (some tkn.length, tkn)
    else
      let tkn := tkn ++ [ind]
      -- a tenth token makes it −1, whether or not another one follows
      if tkn.length ≥ commandTokenNmb then return (none, tkn)
      else
        let ind ← scan (· ≠ 0) cmdline limit (commandLineLen + 1) ind
        if ¬ ind < limit then return (some tkn.length, tkn)
        else splitFrom cmdline limit fuel ind tkn

/-- `split`: what it returns, `none` for −1, and the part of `tkn_arr`
it has assigned. -/
def split (cmdline : Block commandLineLen) (limit : ℕ) : Option (Option ℕ × List ℕ) :=
  splitFrom cmdline limit commandTokenNmb 0 []

/-! ## Output -/

/-- `ENDL`. -/
def endl : List UInt8 := [10, 13]

/-- The digits of a number, the lowest first. -/
def digitsUp : ℕ → ℕ → List UInt8
  | 0, _ => []
  | fuel + 1, nmb => if nmb > 0 then UInt8.ofNat (nmb % 10 + 48) :: digitsUp fuel (nmb / 10) else []

/-- `u16bit_to_str`. Five digits hold 16 bits; 0 makes an empty string. -/
def u16bitToStr (nmb : ℕ) : List UInt8 := if nmb ≤ 0xFFFF then (digitsUp 5 nmb).reverse else []

namespace MicrorlT

variable (s : MicrorlT)

/-- `pThis->print (str)`. -/
def print (str : List UInt8) : MicrorlT := { s with out := s.out ++ str }

/-- `print_prompt`. -/
def printPrompt : MicrorlT := s.print s.promptStr

/-- `terminal_backspace`. -/
def terminalBackspace : MicrorlT := s.print [27, 91, 68, 32, 27, 91, 68]

/-- `terminal_newline`. -/
def terminalNewline : MicrorlT := s.print endl

/-- `terminal_move_cursor`. The longest string it builds fits its 16
bytes. -/
def terminalMoveCursor (offset : ℤ) : MicrorlT :=
  if offset > 0 then s.print ([27, 91] ++ u16bitToStr offset.toNat ++ [67])
  else if offset < 0 then s.print ([27, 91] ++ u16bitToStr (-offset).toNat ++ [68])
  else s

/-- `terminal_reset_cursor`. With its NUL the string has to fit 16
bytes. -/
def terminalResetCursor : Option MicrorlT :=
  let str := [27, 91] ++ u16bitToStr (commandLineLen + s.promptLen + 2) ++ [68, 27, 91] ++
    u16bitToStr s.promptLen ++ [67]
  if str.length < 16 then some (s.print str) else none

/-- A zero byte is shown as a space. -/
def showByte (c : UInt8) : UInt8 := if c = 0 then 32 else c

/-- `terminal_print_line`. -/
def terminalPrintLine (pos cursor : ℕ) : Option MicrorlT := do
  let s := s.print [27, 91, 75]
  let line ← s.cmdline.read pos (s.cmdlen - pos)
  let s ← (s.print (line.map showByte)).terminalResetCursor
  return s.terminalMoveCursor cursor

/-! ## Editing -/

/-- `microrl_insert_text`, and whether there was room. -/
def microrlInsertText (text : List UInt8) : Option (MicrorlT × Bool) :=
  let len := text.length
  if s.cmdlen + len < commandLineLen then do
    let tail ← s.cmdline.read s.cursor (← diff s.cmdlen s.cursor)
    let cmdline ← s.cmdline.write (s.cursor + len) tail
    let cmdline ← cmdline.write s.cursor (text.map fun c => if c = 32 then 0 else c)
    let cmdline ← cmdline.store (s.cmdlen + len) 0
    return ({ s with cmdline := cmdline, cursor := s.cursor + len, cmdlen := s.cmdlen + len }, true)
  else return (s, false)

/-- `microrl_backspace`. -/
def microrlBackspace : Option MicrorlT :=
  if s.cursor > 0 then do
    let s := s.terminalBackspace
    let tail ← s.cmdline.read s.cursor ((← diff s.cmdlen s.cursor) + 1)
    let cmdline ← s.cmdline.write (s.cursor - 1) tail
    let cmdline ← cmdline.store s.cmdlen 0
    return { s with cmdline := cmdline, cursor := s.cursor - 1, cmdlen := s.cmdlen - 1 }
  else return s

/-- `hist_search`. -/
def histSearch (dir : Dir) : Option MicrorlT := do
  let (ringHist, cmdline, ret) ← histRestoreLine s.ringHist s.cmdline dir
  let s := { s with ringHist := ringHist, cmdline := cmdline }
  match ret with
  | none => return s
  | some len =>
    let cmdline ← s.cmdline.store len 0
    let s := { s with cmdline := cmdline, cmdlen := len, cursor := len }
    (← s.terminalResetCursor).terminalPrintLine 0 s.cursor

/-- `while (pThis->cursor > 0) microrl_backspace (pThis)`. -/
def killToBegin : ℕ → MicrorlT → Option MicrorlT
  | 0, _ => none
  | fuel + 1, s => if s.cursor > 0 then do killToBegin fuel (← s.microrlBackspace) else some s

/-- ^U. -/
def keyNak : Option MicrorlT := do
  let s ← killToBegin commandLineLen s
  s.terminalPrintLine 0 s.cursor

/-- ^K. -/
def keyVt : MicrorlT := { s.print [27, 91, 75] with cmdlen := s.cursor }

/-- The end of the line: ^E and the End key. -/
def toEnd : MicrorlT :=
  { s.terminalMoveCursor ((s.cmdlen : ℤ) - s.cursor) with cursor := s.cmdlen }

/-- The start of the line: ^A and the Home key. -/
def toBegin : Option MicrorlT := do
  let s ← s.terminalResetCursor
  return { s with cursor := 0 }

/-- One to the right: ^F and the right arrow. -/
def toRight : MicrorlT :=
  if s.cursor < s.cmdlen then { s.terminalMoveCursor 1 with cursor := s.cursor + 1 } else s

/-- One to the left: ^B and the left arrow. -/
def toLeft : MicrorlT :=
  if s.cursor > 0 then { s.terminalMoveCursor (-1) with cursor := s.cursor - 1 } else s

/-- Backspace. -/
def keyDel : Option MicrorlT := do
  let s ← s.microrlBackspace
  s.terminalPrintLine s.cursor s.cursor

/-- ^R. -/
def keyDc2 : Option MicrorlT := do
  let s ← s.terminalNewline.printPrompt.terminalResetCursor
  s.terminalPrintLine 0 s.cursor

/-- A character. A space does not start a line. -/
def keyDefault (ch : UInt8) : Option MicrorlT :=
  if (ch = 32 ∧ s.cmdlen = 0) ∨ ch ≤ 31 then some s
  else do
    let (s, inserted) ← s.microrlInsertText [ch]
    if inserted then
      if !s.terminalHasEcho then s.terminalPrintLine (← diff s.cursor 1) s.cursor
      else s.terminalPrintLine s.cursor s.cursor
    else return s

/-- `escape_process`, and whether the sequence is at its end. -/
def escapeProcess (ch : UInt8) : Option (MicrorlT × Bool) :=
  if ch = 91 then some ({ s with escapeSeq := .bracket }, false)
  else if s.escapeSeq = .bracket then
    if ch = 65 then do return (← s.histSearch .up, true)
    else if ch = 66 then do return (← s.histSearch .down, true)
    else if ch = 67 then some (s.toRight, true)
    else if ch = 68 then some (s.toLeft, true)
    else if ch = 55 then some ({ s with escapeSeq := .home }, false)
    else if ch = 56 then some ({ s with escapeSeq := .end }, false)
    else some (s, true)
  else if ch = 126 then
    if s.escapeSeq = .home then do return (← s.toBegin, true)
    else if s.escapeSeq = .end then some (s.toEnd, true)
    else some (s, true)
  else some (s, true)

end MicrorlT

/-! ## Completion -/

/-- `complet`: the names with the last token in front, and every name
where there is no token. -/
def complet (keyworld : List (List UInt8)) (argv : List (List UInt8)) : List (List UInt8) :=
  match argv.getLast? with
  | some bit => keyworld.filter fun name => bit.isPrefixOf name
  | none => keyworld

/-- `common_len`. -/
def commonLen (arr : List (List UInt8)) : ℕ :=
  let shortest := arr.foldl (fun m w => if w.length < m.length then w else m) (arr.headD [])
  ((List.range shortest.length).find? fun i => arr.any fun w => shortest[i]? ≠ w[i]?).getD
    shortest.length

namespace MicrorlT

variable (s : MicrorlT)

/-- The token strings that `complet` is given. A last character that is
zero adds an empty one; where `split` has returned −1, that one has no
cell to go to, and `complet` is given a count below zero. -/
def completArgv : Option (List (List UInt8)) := do
  let (status, tkn) ← split s.cmdline s.cursor
  let last ← s.cmdline.load (← diff s.cursor 1)
  match status with
  | none => if last = 0 then none else return []
  | some _ =>
    let argv ← tkn.mapM s.cmdline.str
    return if last = 0 then argv ++ [[]] else argv

/-- The list of the names, with a new prompt below it. -/
def printNames (names : List (List UInt8)) : MicrorlT :=
  (s.terminalNewline.print (names.flatMap fun name => name ++ [32])).terminalNewline.printPrompt

/-- The first `len` characters of `name` without the last token, which
stands there already, and a space behind the only name. -/
def insertRest (argv : List (List UInt8)) (name : List UInt8) (len : ℕ) (only : Bool) :
    Option MicrorlT :=
  if len = 0 then some s
  else do
    let tkn ← argv.getLast?
    let (s, _) ← s.microrlInsertText ((name.drop tkn.length).take (← diff len tkn.length))
    if only then
      let (s, _) ← s.microrlInsertText [32]
      return s
    else return s

/-- `microrl_get_complite`. -/
def microrlGetComplite : Option MicrorlT :=
  match s.getCompletion with
  | none => some s
  | some keyworld => do
    let argv ← s.completArgv
    match complet keyworld argv with
    | [] => return s
    | name :: names =>
      let len := if names.isEmpty then name.length else commonLen (name :: names)
      let s := if names.isEmpty then s else s.printNames (name :: names)
      let s ← s.insertRest argv name len names.isEmpty
      (← s.terminalResetCursor).terminalPrintLine 0 s.cursor

/-! ## Enter -/

/-- The line goes into the history, unless it is empty. -/
def saveLine : Option RingHistory :=
  if s.cmdlen > 0 then histSaveLine s.ringHist s.cmdline s.cmdlen else some s.ringHist

/-- What follows from the status of `split`. -/
def runLine : Option ℕ × List ℕ → MicrorlT
  | (none, _) => (s.print (ascii "ERROR:too many tokens")).print endl
  | (some status, tkn) =>
    if status > 0 ∧ s.execute then { s with calls := s.calls ++ [⟨status, tkn, s.cmdline⟩] } else s

/-- `new_line_handler`. -/
def newLineHandler : Option MicrorlT := do
  let s := s.terminalNewline
  let ringHist ← s.saveLine
  let s := (s.runLine (← split s.cmdline s.cmdlen)).printPrompt
  let cmdline ← clearLine s.cmdline
  return { s with ringHist := { ringHist with cur := 0 }, cmdline := cmdline, cmdlen := 0, cursor := 0 }

/-- The switch of `microrl_insert_char`. `KEY_CR` is Enter, and `KEY_LF`
is ignored. -/
def processKey (ch : UInt8) : Option MicrorlT :=
  if ch = 10 then some s
  else if ch = 13 then s.newLineHandler
  else if ch = 9 then s.microrlGetComplite
  else if ch = 27 then some { s with escape := true }
  else if ch = 21 then s.keyNak
  else if ch = 11 then some s.keyVt
  else if ch = 5 then some s.toEnd
  else if ch = 1 then s.toBegin
  else if ch = 6 then some s.toRight
  else if ch = 2 then some s.toLeft
  else if ch = 16 then s.histSearch .up
  else if ch = 14 then s.histSearch .down
  else if ch = 127 ∨ ch = 8 then s.keyDel
  else if ch = 18 then s.keyDc2
  else s.keyDefault ch

/-- `microrl_insert_char`. -/
def microrlInsertChar (ch : UInt8) : Option MicrorlT :=
  if s.escape then do
    let (s, done) ← s.escapeProcess ch
    return if done then { s with escape := false } else s
  else s.processKey ch

/-- `microrl_init`, on a zeroed `microrl_t`. `prompt_default` is
green. -/
def microrlInit : MicrorlT where
  escapeSeq := .unset
  escape := false
  ringHist := .init
  promptStr := [27] ++ ascii "[32mS >" ++ [27] ++ ascii "[0m "
  cmdline := ⟨fun _ => 0⟩
  cmdlen := 0
  cursor := 0
  execute := false
  getCompletion := none
  terminalHasEcho := false
  promptLen := 4
  out := []
  calls := []

/-- `microlSetPromtStr`. -/
def microlSetPromtStr (prompt : List UInt8) : MicrorlT := { s with promptStr := prompt }

/-- `microlSetPromptLen`. -/
def microlSetPromptLen (lne : ℕ) : MicrorlT := { s with promptLen := lne }

/-- `microrl_set_echo`. -/
def microrlSetEcho (echo : Bool) : MicrorlT := { s with terminalHasEcho := echo }

/-- `microrl_set_complete_callback`. -/
def microrlSetCompleteCallback (keyworld : Option (List (List UInt8))) : MicrorlT :=
  { s with getCompletion := keyworld }

/-- `microrl_set_execute_callback`. -/
def microrlSetExecuteCallback : MicrorlT := { s with execute := true }

/-- The editor after `microrl_init`, with its callbacks and the echo
set. -/
def start (keyworld : Option (List (List UInt8))) (echo : Bool) : MicrorlT :=
  (microrlInit.microrlSetExecuteCallback.microrlSetCompleteCallback keyworld).microrlSetEcho echo

end MicrorlT

/-- The names `taskMicroRl` registers with `addCmd`. -/
def keyworld : List (List UInt8) :=
  [ascii "help", ascii "clear", ascii "aboutTask", ascii "TelNetAbonentCon", ascii "CPU_Idle",
    ascii "CPU_Gra", ascii "ebi_rv", ascii "time"]

end Microrl

end SlipBoard
