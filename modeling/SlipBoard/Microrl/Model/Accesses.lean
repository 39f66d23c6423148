import SlipBoard.Common.Traced
import SlipBoard.Microrl.Model.Editor
/-!
# Line editor — the accesses of TAB

`microrl_get_complite` and what it calls once more, each read of
`cmdline` and each access to `tkn_arr` entered in a log. Where the
functions of `Model/Editor.lean` work with the tokens as strings, these
keep the pointers and follow them when the code does; that both compute
the same is proved of them.

A read of `cmdline` is entered with the length the line has at that
moment. `microrl_insert_text` reads back the text it stores, and what
follows it of a length it has not set yet: its reads are entered with
the length it is about to set.
-/

namespace SlipBoard

namespace Microrl

/-- An access to `cmdline`, in a line of `cmdlen` bytes, or to
`tkn_arr`, of which `assigned` cells have been assigned. -/
inductive Access
  | line (i : ℤ) (cmdlen : ℕ)
  | tknStore (i : ℤ)
  | tknLoad (i : ℤ) (assigned : ℕ)
  deriving DecidableEq

/-- A read of the line or of the cell behind it, a store inside
`tkn_arr`, a load of a cell assigned. -/
def Access.InBounds : Access → Prop
  | .line i cmdlen => 0 ≤ i ∧ i ≤ cmdlen
  | .tknStore i => 0 ≤ i ∧ i < commandTokenNmb
  | .tknLoad i assigned => 0 ≤ i ∧ i < commandTokenNmb ∧ i < assigned

instance : DecidablePred Access.InBounds
  | .line _ _ => inferInstanceAs (Decidable (_ ∧ _))
  | .tknStore _ => inferInstanceAs (Decidable (_ ∧ _))
  | .tknLoad _ _ => inferInstanceAs (Decidable (_ ∧ _ ∧ _))

/-- What `tkn_arr` holds: a pointer into `cmdline`, or the literal
`""`. -/
inductive Tkn
  | at (i : ℕ)
  | empty
  deriving DecidableEq

/-- `tkn_arr [i] = p`. The code stores behind the cells assigned, or
outside the array. -/
def storeTkn (tkn : List Tkn) (i : ℤ) (p : Tkn) : Traced Access (List Tkn) :=
  ⟨[.tknStore i], if i = tkn.length ∧ i < commandTokenNmb then some (tkn ++ [p]) else none⟩

/-- `tkn_arr [i]`. -/
def loadTkn (tkn : List Tkn) (i : ℤ) : Traced Access Tkn :=
  ⟨[.tknLoad i tkn.length], if 0 ≤ i then tkn[i.toNat]? else none⟩

namespace MicrorlT

variable (s : MicrorlT)

/-- `cmdline [i]`. -/
def loadT (i : ℤ) : Traced Access UInt8 :=
  ⟨[.line i s.cmdlen], if 0 ≤ i then s.cmdline.load i.toNat else none⟩

/-- The bytes `cmdline [lo .. lo + len)`, read in a line of `cmdlen`
bytes. -/
def readT (cmdlen lo len : ℕ) : Traced Access (List UInt8) :=
  ⟨(List.range len).map fun k => .line (lo + k : ℕ) cmdlen, s.cmdline.read lo len⟩

/-- The string of a token: a function of the library reads it up to its
NUL, and the NUL. -/
def strT : Tkn → Traced Access (List UInt8)
  | .at i => ⟨(List.range ((s.cmdline.cstr i).length + 1)).map fun k => .line (i + k : ℕ) s.cmdlen,
      s.cmdline.str i⟩
  | .empty => pure []

/-! ## Tokens -/

/-- `while (p (cmdline [ind]) && (ind < limit)) ind++`. -/
def scanT (p : UInt8 → Bool) (limit : ℕ) : ℕ → ℕ → Traced Access ℕ
  | 0, _ => .lift none
  | fuel + 1, ind => do
    let c ← s.loadT ind
    if p c ∧ ind < limit then scanT p limit fuel (ind + 1)
    else return ind

/-- The rounds of `split`. -/
def splitFromT (limit : ℕ) : ℕ → ℕ → List Tkn → Traced Access (ℤ × List Tkn)
  | 0, _, _ => .lift none
  | fuel + 1, ind, tkn => do
    let ind ← s.scanT (· = 0) limit (commandLineLen + 1) ind
    if ¬ ind < limit then return (tkn.length, tkn)
    else
      let tkn ← storeTkn tkn tkn.length (.at ind)
      if tkn.length ≥ commandTokenNmb then return (-1, tkn)
      else
        let ind ← s.scanT (· ≠ 0) limit (commandLineLen + 1) ind
        if ¬ ind < limit then return (tkn.length, tkn)
        else splitFromT limit fuel ind tkn

/-- `split`. -/
def splitT (limit : ℕ) : Traced Access (ℤ × List Tkn) := s.splitFromT limit commandTokenNmb 0 []

/-! ## Completion -/

/-- The loop of `complet` over the names, with the last token. -/
def matchT (bit : Tkn) : List (List UInt8) → Traced Access (List (List UInt8))
  | [] => return []
  | name :: names => do
    let str ← s.strT bit
    let found ← matchT bit names
    return if str.isPrefixOf name then name :: found else found

/-- `complet`. -/
def completT (keyworld : List (List UInt8)) (argc : ℤ) (argv : List Tkn) :
    Traced Access (List (List UInt8)) :=
  if argc ≥ 1 then do s.matchT (← loadTkn argv (argc - 1)) keyworld
  else return keyworld

/-- `microrl_insert_text`. -/
def microrlInsertTextT (text : List UInt8) : Traced Access (MicrorlT × Bool) :=
  if s.cmdlen + text.length < commandLineLen then do
    let cmdlen := s.cmdlen + text.length
    let tail ← s.readT cmdlen s.cursor (← .lift (diff s.cmdlen s.cursor))
    let cmdline ← .lift (s.cmdline.write (s.cursor + text.length) tail)
    let cmdline ← .lift (cmdline.write s.cursor (text.map fun c => if c = 32 then 0 else c))
    -- each byte is read back, for the test whether it is a space
    let _ ← { s with cmdline := cmdline }.readT cmdlen s.cursor text.length
    let cmdline ← .lift (cmdline.store cmdlen 0)
    return ({ s with cmdline := cmdline, cursor := s.cursor + text.length, cmdlen := cmdlen }, true)
  else return (s, false)

/-- `strlen (tkn_arr [status - 1])`. -/
def lastLenT (status : ℤ) (tkn : List Tkn) : Traced Access ℕ := do
  let str ← s.strT (← loadTkn tkn (status - 1))
  return str.length

/-- `if (len)` and its body. -/
def insertRestT (status : ℤ) (tkn : List Tkn) (name : List UInt8) (len : ℕ) (only : Bool) :
    Traced Access MicrorlT :=
  if len = 0 then return s
  else do
    let text := name.drop (← s.lastLenT status tkn)
    let n ← .lift (diff len (← s.lastLenT status tkn))
    let (s, _) ← s.microrlInsertTextT (text.take n)
    if only then
      let (s, _) ← s.microrlInsertTextT [32]
      return s
    else return s

/-- `terminal_print_line`. -/
def terminalPrintLineT (pos cursor : ℕ) : Traced Access MicrorlT := do
  let s := s.print [27, 91, 75]
  let line ← s.readT s.cmdlen pos (s.cmdlen - pos)
  let s ← .lift (s.print (line.map showByte)).terminalResetCursor
  return s.terminalMoveCursor cursor

/-- The token that stands for a last character that is zero. -/
def lastTknT (status : ℤ) (tkn : List Tkn) : Traced Access (ℤ × List Tkn) := do
  let last ← s.loadT ((s.cursor : ℤ) - 1)
  if last = 0 then return (status + 1, ← storeTkn tkn status .empty)
  else return (status, tkn)

/-- `if (compl_token [0] != NULL)` and its body. -/
def foundT (status : ℤ) (tkn : List Tkn) : List (List UInt8) → Traced Access MicrorlT
  | [] => return s
  | name :: names => do
    let len := if names.isEmpty then name.length else commonLen (name :: names)
    let s := if names.isEmpty then s else s.printNames (name :: names)
    let s ← s.insertRestT status tkn name len names.isEmpty
    (← .lift s.terminalResetCursor).terminalPrintLineT 0 s.cursor

/-- `microrl_get_complite`. -/
def microrlGetCompliteT : Traced Access MicrorlT :=
  match s.getCompletion with
  | none => return s
  | some keyworld => do
    let (status, tkn) ← s.splitT s.cursor
    let (status, tkn) ← s.lastTknT status tkn
    s.foundT status tkn (← s.completT keyworld status tkn)

/-- **The accesses of a TAB.** Inside an escape sequence the byte ends
the sequence, or is passed over, and no array is looked at. -/
def tabAccesses : List Access := if s.escape then [] else s.microrlGetCompliteT.log

end MicrorlT

end Microrl

end SlipBoard
