import SlipBoard.Shell.Ids
import SlipBoard.Shell.Parse
/-!
# Shell — the argument of a command

`shell_parse` takes the spaces off a line to look at its first word, and
then counts the length of that word from the start of the line, spaces
and all (`str_argument`). So a command is passed the rest of its line
exactly where the line does not begin with a space
(`argument_isRest_iff`).
-/

namespace SlipBoard

namespace Shell

open Transition

variable {sh : Commands} {regs : List Registration} {fuel : ℕ} {line : List UInt8}
variable {shellbuf : ShellBuf} {r : Registration}

/-- The text of a line that follows its first word. -/
def argText (line : List UInt8) : List UInt8 :=
  (line.dropWhile (· = 32)).drop (firstWord line).length

/-- **A command is passed the rest of its line**: the row of the history
holds the line, and the string that `arg` points at is what follows the
first word. -/
def ArgumentIsRest (fuel : ℕ) (sh : Commands) (shellbuf : ShellBuf) (line : List UInt8) : Prop :=
  ∃ sh' cmdmatch Func record arg, shellParse fuel sh shellbuf =
      some (sh', { shellbuf with index := 0 }, .call cmdmatch Func record arg) ∧
    (sh'.history.buf record).str 0 = some line ∧
    (sh'.history.buf record).str arg = some (argText line)

/-- The string at an index of a row that holds the line. -/
theorem str_recorded (history : History) (hnul : 0 ∉ line)
    (hshort : line.length < commandlineMaxLen) {l : ℕ} (hl : l ≤ line.length) :
    ((history.recorded line).buf history.write).str l = some (line.drop l) := by
  have hstr := Block.str_overwrite_drop (b := history.buf history.write) hnul hl
    (by rwa [Nat.zero_add])
  rw [Nat.zero_add] at hstr
  rw [History.buf_recorded, hstr]

/-- The first word is a part of the line. -/
theorem length_firstWord_add (line : List UInt8) :
    (firstWord line).length + (argText line).length = (line.dropWhile (· = 32)).length := by
  have hle : (firstWord line).length ≤ (line.dropWhile (· = 32)).length :=
    (List.takeWhile_prefix _).length_le
  rw [argText, List.length_drop]
  omega

/-- **The two views of the line agree** where nothing is taken off it in
front: one drops the word from the line, the other takes what stands behind
it. -/
theorem drop_eq_argText_iff :
    line.drop (firstWord line).length = argText line ↔ line.head? ≠ some 32 := by
  have hword := length_firstWord_add line
  cases line with
  | nil => exact iff_of_true rfl (fun h => by cases h)
  | cons c text =>
    rw [List.head?_cons, Ne, Option.some.injEq]
    by_cases hc : c = 32
    · -- at least one character is taken off, so the rest is shorter
      refine iff_of_false (fun heq => ?_) (fun h => h hc)
      have hlength := congrArg List.length heq
      have hdrop : (c :: text).dropWhile (· = 32) = text.dropWhile (· = 32) :=
        List.dropWhile_cons_of_pos (by simpa using hc)
      have hle := (List.dropWhile_suffix (l := text) (· = 32)).length_le
      rw [hdrop] at hword
      rw [List.length_drop, List.length_cons] at hlength
      omega
    · refine iff_of_true ?_ hc
      rw [argText, List.dropWhile_cons_of_neg (by simpa using hc)]

/-- **What `arg` points at**: the line from the length of its first word on,
whatever spaces stand in front of the word. -/
theorem str_argument (h : Registered regs sh) (hfuel : regs.length < fuel)
    (hline : Typed shellbuf line) (hnul : 0 ∉ line) (hr : r ∈ regs)
    (hword : firstWord line = r.cmdName) (hname : r.cmdName ≠ []) (hshort : r.cmdName.length ≤ 31) :
    ∃ sh' cmdmatch Func record arg, shellParse fuel sh shellbuf =
        some (sh', { shellbuf with index := 0 }, .call cmdmatch Func record arg) ∧
      (sh'.history.buf record).str 0 = some line ∧
      (sh'.history.buf record).str arg = some (line.drop (firstWord line).length) := by
  obtain ⟨q, -, hfirst, hID⟩ := exists_firstWith hr
  have hparse := shellParse_of_word h hfuel hline (hword ▸ hname)
  rw [answer, hword, hfirst] at hparse
  have hnul' : 0 ∉ r.cmdName := by
    rw [← hword]
    exact fun hmem =>
      hnul ((List.dropWhile_suffix _).subset ((List.takeWhile_prefix _).subset hmem))
  have hlength := length_firstWord_add line
  have hle := (List.dropWhile_suffix (l := line) (· = 32)).length_le
  refine ⟨_, _, _, _, _, hparse, ?_, ?_⟩
  · exact str_recorded sh.history hnul hline.short (Nat.zero_le _)
  · rw [hID, cmdLen_nameID hnul' hshort, ← hword]
    exact str_recorded sh.history hnul hline.short (by omega)

/-- **The argument of a command**, after any registrations of other structs,
is the rest of the line exactly where the line does not begin with a space:
the name is looked up without the spaces in front, and the argument is cut
from the line with them. -/
theorem argument_isRest_iff (hnew : (regs.map (·.newcmd)).Nodup) (hfuel : regs.length < fuel)
    (hroot : sh.root.root = none) (hline : Typed shellbuf line) (hnul : 0 ∉ line) (hr : r ∈ regs)
    (hword : firstWord line = r.cmdName) (hname : r.cmdName ≠ []) (hshort : r.cmdName.length ≤ 31) :
    ∃ sh₁, run (shellRegister fuel) sh regs = some sh₁ ∧
      (ArgumentIsRest fuel sh₁ shellbuf line ↔ line.head? ≠ some 32) := by
  obtain ⟨sh₁, hrun, h₁⟩ := exists_registered hnew hfuel hroot
  refine ⟨sh₁, hrun, ?_⟩
  obtain ⟨sh', cmdmatch, Func, record, arg, hparse, hrow, hstr⟩ :=
    str_argument h₁ hfuel hline hnul hr hword hname hshort
  rw [← drop_eq_argText_iff]
  constructor
  · rintro ⟨_, _, _, _, _, hparse', -, hstr'⟩
    rw [hparse] at hparse'
    cases hparse'
    exact Option.some.inj (hstr.symm.trans hstr')
  · intro heq
    exact ⟨sh', cmdmatch, Func, record, arg, hparse, hrow, heq ▸ hstr⟩

/-- A line that begins with its command: `clear` is passed ` x`. -/
theorem argument_isRest_iff_clear : ∃ sh₁,
    run (shellRegister 4) .start initCommands = some sh₁ ∧
      (ArgumentIsRest 4 sh₁ (.of (ascii "clear x")) (ascii "clear x") ↔
        (ascii "clear x").head? ≠ some 32) :=
  argument_isRest_iff (r := clear) (by decide) (by decide) rfl (typed_of _ (by decide)) (by decide)
    (by decide) (by decide) (by decide) (by decide)

/-- **An indented line**: `clear` is passed `r x`, the rest of the line from
one character too early on. -/
theorem indented_argument : ∃ sh₁ sh₂ cmdmatch Func record arg,
    run (shellRegister 4) .start initCommands = some sh₁ ∧
      shellParse 4 sh₁ (.of (ascii " clear x")) = some (sh₂,
        { ShellBuf.of (ascii " clear x") with index := 0 }, .call cmdmatch Func record arg) ∧
      (sh₂.history.buf record).str arg = some (ascii "r x") ∧
      argText (ascii " clear x") = ascii " x" ∧
      ¬ArgumentIsRest 4 sh₁ (.of (ascii " clear x")) (ascii " clear x") := by
  have hline : Typed (.of (ascii " clear x")) (ascii " clear x") := typed_of _ (by decide)
  have hfuel : initCommands.length < 4 := by decide
  obtain ⟨sh₁, hrun, h₁⟩ :=
    exists_registered (by decide) hfuel (show Commands.start.root.root = none from rfl)
  obtain ⟨sh₂, cmdmatch, Func, record, arg, hparse, -, hstr⟩ :=
    str_argument h₁ hfuel hline (by decide) (r := clear) (by decide) (by decide) (by decide)
      (by decide)
  refine ⟨sh₁, sh₂, cmdmatch, Func, record, arg, hrun, hparse, hstr, by decide, ?_⟩
  rintro ⟨_, _, _, _, _, hparse', -, hrest⟩
  rw [hparse] at hparse'
  cases hparse'
  rw [hstr] at hrest
  revert hrest
  decide

end Shell

end SlipBoard
