import SlipBoard.Telnet.Model.Console
/-!
# Telnet console — the prompt of a user

`setConsolePrompt` colours the prompt of a user in place: it prints the
string of `nameConsol` between two escape sequences into a buffer of its
own, and copies the buffer back. A row of `users` is its memory here, the
fields one behind another, so that a string longer than its array runs
into the next field.

A write past the row itself would fall on the next row. That is not
followed: such a write has gone past `namem` before.
-/

namespace SlipBoard

namespace Telnet

/-- Where `nameConsol` is in a row, behind `name`. -/
abbrev nameConsolAt : ℕ := tnMaxSizeStr

/-- The size of `nameConsol`, and of `namem`. -/
abbrev nameConsolSize : ℕ := tnMaxSizeStr + 4 + 9

/-- Where `passworld` is. -/
abbrev passworldAt : ℕ := nameConsolAt + nameConsolSize

/-- Where `isAdmin` is. -/
abbrev isAdminAt : ℕ := passworldAt + tnMaxSizeStr

/-- The memory of a row. -/
abbrev Row := Block (isAdminAt + 1)

/-- The row of a user, in memory that was zero. -/
def UserTelNet.row (u : UserTelNet) : Row :=
  (((Block.overwrite ⟨fun _ => 0⟩ 0 u.name.bytes).overwrite nameConsolAt u.nameConsol.bytes).overwrite
    passworldAt u.passworld.bytes).set isAdminAt (if u.isAdmin then 1 else 0)

/-- `xputs`, as `xputc` puts each character: a line feed becomes two. -/
def xputs (str : List UInt8) : List UInt8 := str.flatMap fun c => if c = 10 then [13, 10] else [c]

/-- `PURPUR_BEGIN` of an administrator, `BERUZ_BEGIN` of others. -/
def colorBegin (admin : Bool) : List UInt8 := [27] ++ ascii (if admin then "[35m" else "[36m")

/-- `END_COLOR`. -/
def endColor : List UInt8 := [27] ++ ascii "[0m"

/-- What a call of `setConsolePrompt` does: the row it leaves, the length
given to `microlSetPromptLen`, and how many bytes it has written, to
`namem` first and then to `name`. -/
structure Prompted where
  row : Row
  promptLen : ℕ
  written : ℕ

/-- `setConsolePrompt (users[i].nameConsol, users[i].isAdmin)`. The text
holds no NUL, so `strcpy` copies all of it. -/
def setConsolePrompt (row : Row) : Prompted :=
  let name := row.cstr nameConsolAt
  let namem := colorBegin (row.byte isAdminAt ≠ 0) ++ xputs name ++ endColor ++ [0]
  ⟨row.overwrite nameConsolAt namem, name.length, namem.length⟩

/-- The rows `initUsers` fills, or another table of its kind. -/
def tableOf (users : List UserTelNet) (i : ℕ) : Row := (users.getD i .zero).row

/-- A login of user `i`. -/
def loginOf (table : ℕ → Row) (i : ℕ) : Option (ℕ → Row) :=
  some (Function.update table i (setConsolePrompt (table i)).row)

end Telnet

end SlipBoard
