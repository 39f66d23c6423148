import SlipBoard.Shell.Model.Chunk
import SlipBoard.Shell.Model.Tab
/-!
# Shell — the line editor

What `shell_input` of `TelNet/shell.c` does with its keys:
`shell_backspace`, `shell_show_history` and the branches of its `switch`,
with `shell_getchar`, `shell_tab` and `shell_parse` of the other modules.
What is printed is one text. A command's `Func` is logged and not run: it
has no access to the line and the history.
-/

namespace SlipBoard

namespace Shell

/-- `shell_backspace`, and what it prints. -/
def shellBackspace (shellbuf : ShellBuf) : Option (ShellBuf × List UInt8) :=
  if shellbuf.index ≠ 0 then do
    let b ← shellbuf.bufmem.store (shellbuf.index - 1) 0
    return (⟨b, shellbuf.index - 1⟩, [8, 32, 8])
  else return (shellbuf, [])

/-- `bufmem[0] = 0; index = 0`. -/
def ShellBuf.wipe (shellbuf : ShellBuf) : Option ShellBuf := do
  let b ← shellbuf.bufmem.store 0 0
  return ⟨b, 0⟩

/-- The end of `shell_show_history`: the row `read` goes into the line. -/
def showRow (h : History) (shellbuf : ShellBuf) : Option (ShellBuf × List UInt8) := do
  let history ← (h.buf h.read).str 0
  if history.length ≠ 0 then do
    let b ← shellbuf.bufmem.write 0 history
    let b ← b.store history.length 0
    return (⟨b, history.length⟩, history)
  else do
    let shellbuf ← shellbuf.wipe
    return (shellbuf, [])

/-- `shell_show_history`. -/
def shellShowHistory (shellInputSign : List UInt8) (h : History) (shellbuf : ShellBuf)
    (lastOrNext : Bool) : Option (History × ShellBuf × List UInt8) := do
  let sign := ascii "\x1b[2K\r" ++ shellInputSign
  if !lastOrNext then do
    let h := { h with read := if h.read = 0 then Fin.last 3 else h.read - 1 }
    let (shellbuf, text) ← showRow h shellbuf
    return (h, shellbuf, sign ++ text)
  else if h.read = h.write then do
    let shellbuf ← shellbuf.wipe
    return (h, shellbuf, sign)
  else do
    let h := { h with read := h.read + 1 }
    let (shellbuf, text) ← showRow h shellbuf
    return (h, shellbuf, sign ++ text)

/-- The shell of a connection: the commands and the history, the line, what
has been printed, and what `shell_parse` has ended with. -/
structure Console where
  sh : Commands
  shellbuf : ShellBuf
  out : List UInt8
  ended : List Outcome

/-- What an outcome prints. -/
def Outcome.text : Outcome → List UInt8
  | .noReply line => line
  | _ => []

/-- The texts among the events of TAB. -/
def TabEvent.text : TabEvent → List UInt8
  | .matchAt _ => []
  | .print text => text

/-- The `switch` of `shell_input`. -/
def Console.key (fuel : ℕ) (shellInputSign : List UInt8) (s : Console) : Key → Option Console
  | .enter =>
    let s := { s with out := s.out ++ [13, 10] }
    if s.shellbuf.index ≠ 0 then do
      let (sh, shellbuf, outcome) ← shellParse fuel s.sh s.shellbuf
      return ⟨sh, shellbuf, s.out ++ outcome.text, s.ended ++ [outcome]⟩
    else return { s with out := s.out ++ shellInputSign }
  | .tab => do
    let tab := shellTab fuel shellInputSign s.sh s.shellbuf
    let shellbuf ← tab.answer
    return { s with shellbuf := shellbuf, out := s.out ++ tab.log.flatMap TabEvent.text }
  | .backspace => do
    let (shellbuf, text) ← shellBackspace s.shellbuf
    return { s with shellbuf := shellbuf, out := s.out ++ text }
  | .history next => do
    let (h, shellbuf, text) ← shellShowHistory shellInputSign s.sh.history s.shellbuf next
    return { s with sh := { s.sh with history := h }, shellbuf := shellbuf, out := s.out ++ text }
  | .ctrlC => some
    { s with shellbuf := { s.shellbuf with index := 0 }, out := s.out ++ ascii "^C" }
  | .char c => do
    let getchar := shellGetchar s.shellbuf c
    let shellbuf ← getchar.answer
    return { s with shellbuf := shellbuf, out := s.out ++ getchar.log.flatMap TabEvent.text }

end Shell

end SlipBoard
