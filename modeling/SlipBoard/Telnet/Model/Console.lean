import SlipBoard.Common.Block
/-!
# Telnet console — the login dialogue and the receive loop

`telNetConsole` takes one byte of the client through the login dialogue
and hands it to the line editor once the session is open;
`handleNetbuf` is what the receive loop of `theard_Telnet_Server` does
with one netbuf. Both answer the new options of the session and the
calls made, in order.

The build without `USE_ACCEST` compiles another body of `telNetConsole`,
`telNetConsolePlain` here, and opens its sessions in state `Input`.
-/

namespace SlipBoard

namespace Telnet

/-- `TN_MAX_SIZE_STR`. -/
abbrev tnMaxSizeStr : ℕ := 16

/-- A row of the user table. -/
structure UserTelNet where
  name : CStr tnMaxSizeStr
  nameConsol : CStr (tnMaxSizeStr + 4 + 9)
  passworld : CStr tnMaxSizeStr
  isAdmin : Bool

/-- A row of `users` that `initUsers` has not filled. -/
def UserTelNet.zero : UserTelNet :=
  ⟨.empty (by decide), .empty (by decide), .empty (by decide), false⟩

/-- The rows `initUsers` fills. -/
def initUsers : List UserTelNet :=
  [⟨⟨ascii "admin", by decide, by decide⟩, ⟨ascii "admin > ", by decide, by decide⟩,
      ⟨ascii "admin", by decide, by decide⟩, true⟩,
    ⟨⟨ascii "user", by decide, by decide⟩, ⟨ascii "user > ", by decide, by decide⟩,
      ⟨ascii "user", by decide, by decide⟩, false⟩]

/-- `enum var`. The `int` that holds it is assigned these values only,
so the `default` of the switch is not reached. -/
inductive Var
  | loginPrint
  | loginInput
  | passInput
  | input
  deriving DecidableEq

/-- The options of a session. `userVal` and `val` hold whatever the
stack held until they are first assigned. -/
structure OptionsUser where
  state : Var
  userVal : ℕ
  val : Block tnMaxSizeStr
  numS : ℕ

/-- What a byte makes the console call. `storeVal` is no call but a
store to `option->val`, recorded with its index. -/
inductive Call
  | printTelNet (str : List UInt8)
  | xprintf (str : List UInt8)
  | setConsolePrompt (name : List UInt8) (admin : Bool)
  | recymeMas (data : List UInt8)
  | netconnWrite (data : List UInt8)
  | storeVal (i : ℕ)
  deriving DecidableEq

/-- `KEY_CR`, and `'\n'` beside it in the switch. -/
def isEnter (data : UInt8) : Bool := data = 13 || data = 10

/-- `KEY_DEL`. -/
abbrev keyDel : UInt8 := 127

/-- `KEY_ESC`. -/
abbrev keyEsc : UInt8 := 27

/-- `IS_CONTROL_CHAR`. -/
def isControlChar (data : UInt8) : Bool := data ≤ 31

namespace OptionsUser

variable (o : OptionsUser)

/-- `option->val[option->numS] = 0; option->numS = 0`. With `numS` at 16
the terminator falls on the low byte of `numS` itself, which the second
assignment clears anyway. -/
def terminate : OptionsUser × List Call :=
  ({ o with val := o.val.set o.numS 0, numS := 0 }, [.storeVal o.numS])

/-- The `default` of both switches: a character that is no control
character is appended while the size admits it. -/
def append (data : UInt8) : OptionsUser × List Call :=
  if isControlChar data then (o, [])
  else if o.numS < tnMaxSizeStr then
    ({ o with val := o.val.set o.numS data, numS := o.numS + 1 }, [.storeVal o.numS])
  else (o, [])

/-- `strcmp(option->val, str) == 0`. -/
def isVal (str : CStr tnMaxSizeStr) : Bool := o.val.cstr 0 = str.bytes

end OptionsUser

/-- The prompt for the password of a user. -/
def passPrompt (u : UserTelNet) : List UInt8 :=
  ascii "\rPassworld for " ++ u.name.bytes ++ ascii ":"

/-- The body of the search: a user whose name was entered. -/
def tryUser (r : OptionsUser × List Call) (ui : UserTelNet × ℕ) : OptionsUser × List Call :=
  if r.1.isVal ui.1.name then
    ({ r.1 with userVal := ui.2, state := .passInput },
      r.2 ++ [.printTelNet (passPrompt ui.1),
        .xprintf (ascii "User:" ++ ui.1.name.bytes ++ ascii " print passworld\n\r")])
  else r

/-- The search of the user table. It does not stop at a match. -/
def findUser (users : List UserTelNet) (o : OptionsUser) : OptionsUser × List Call :=
  users.zipIdx.foldl tryUser (o, [])

/-- Enter in the login prompt. -/
def enterLogin (users : List UserTelNet) (o : OptionsUser) : OptionsUser × List Call :=
  let t := o.terminate
  let f := findUser users t.1
  -- the search starts in `LoginInput`, so the state tells whether it found a name
  if f.1.state ≠ .passInput then
    ({ f.1 with state := .loginInput }, .printTelNet (ascii "\n") :: t.2 ++ f.2 ++
      [.printTelNet (ascii "\rusen not found\n"), .printTelNet (ascii "\rLogin:"),
        .xprintf (ascii "user:" ++ f.1.val.cstr 0 ++ ascii " not find\n\r")])
  else (f.1, .printTelNet (ascii "\n") :: t.2 ++ f.2)

/-- `case LoginInput`. -/
def loginInput (users : List UserTelNet) (data : UInt8) (o : OptionsUser) :
    OptionsUser × List Call :=
  if data = 0 then (o, [])
  else
    let r :=
      if isEnter data then enterLogin users o
      else if data = keyDel then
        if o.numS ≠ 0 then
          ({ o with numS := o.numS - 1 }, [.printTelNet [255, 247, 8], .printTelNet (ascii " "),
            .printTelNet [255, 247, 8]])
        else (o, [])
      else if data = keyEsc then (o, [])
      else o.append data
    (r.1, .printTelNet [data] :: r.2)

/-- Enter in the password prompt. -/
def enterPass (users : List UserTelNet) (o : OptionsUser) : OptionsUser × List Call :=
  let t := o.terminate
  let u := users.getD o.userVal .zero
  if t.1.isVal u.passworld then
    ({ t.1 with state := .input }, .printTelNet (ascii "\r\n") :: t.2 ++
      [.setConsolePrompt u.nameConsol.bytes u.isAdmin, .recymeMas [13],
        .xprintf ((if u.isAdmin then ascii "Admin" else ascii "User") ++ ascii ": " ++
          u.name.bytes ++ ascii " enter\n\r")])
  else
    (t.1, .printTelNet (ascii "\r\n") :: t.2 ++
      [.printTelNet (ascii "\rError passvorld is false\n"),
        .xprintf (ascii "Passworld for " ++ u.name.bytes ++ ascii " is false\n\r"),
        .printTelNet (passPrompt u)])

/-- `case PassInput`. -/
def passInput (users : List UserTelNet) (data : UInt8) (o : OptionsUser) :
    OptionsUser × List Call :=
  if data = 0 then (o, [])
  else if isEnter data then enterPass users o
  else if data = keyDel then
    if o.numS ≠ 0 then ({ o with numS := o.numS - 1 }, []) else (o, [])
  else if data = keyEsc then
    ({ o with state := .loginInput, numS := 0 }, [.printTelNet (ascii "\n\rLogin:")])
  else o.append data

/-- `telNetConsole`, with `USE_ACCEST`. The first state falls through
into the second. -/
def telNetConsole (users : List UserTelNet) (data : UInt8) (o : OptionsUser) :
    OptionsUser × List Call :=
  match o.state with
  | .loginPrint =>
    let r := loginInput users data { o with state := .loginInput }
    (r.1, .printTelNet (ascii "\rLogin:") :: r.2)
  | .loginInput => loginInput users data o
  | .passInput => passInput users data o
  | .input => (o, [.recymeMas [data]])

/-- `telNetConsole`, without `USE_ACCEST`. -/
def telNetConsolePlain (data : UInt8) (o : OptionsUser) : OptionsUser × List Call :=
  (o, [.recymeMas [if data = 0 then 13 else data]])

/-- The two builds. -/
inductive Build
  | accest (users : List UserTelNet)
  | plain

/-- The `telNetConsole` a build has. -/
def Build.console : Build → UInt8 → OptionsUser → OptionsUser × List Call
  | .accest users => telNetConsole users
  | .plain => telNetConsolePlain

/-- The bytes of a call passed to `telNetConsole` one after another. -/
def Build.consoles (build : Build) : List UInt8 → OptionsUser → OptionsUser × List Call
  | [], o => (o, [])
  | data :: rest, o =>
    let r := build.console data o
    let r' := build.consoles rest r.1
    (r'.1, r.2 ++ r'.2)

/-- What the receive loop does with a netbuf. More than three bytes are
taken for the client's negotiation, three for a key that sends an escape
sequence, fewer for a key; a netbuf lwIP delivers is not empty, so
`buf[0]` is there. -/
def handleNetbuf (build : Build) (buf : List UInt8) (o : OptionsUser) :
    OptionsUser × List Call :=
  if buf.length > 3 then
    -- `telNetConsole(NULL, …)`: the byte is NUL, whatever the netbuf holds
    let r := build.console 0 o
    (r.1, .netconnWrite [255, 251, 1] :: r.2)
  else if buf.length = 3 then
    if buf.getD 0 0 = 27 ∧ buf.getD 1 0 = 91 then
      -- the arrows are `ESC [ A` to `ESC [ D`
      if buf.getD 2 0 > 64 ∧ buf.getD 2 0 < 69 ∧ o.state = .input then build.consoles buf o
      else (o, [])
    else (o, [])
  else build.console (buf.getD 0 0) o

/-- The netbufs of a session, in the order `netconn_recv` delivers
them. -/
def receive (build : Build) : List (List UInt8) → OptionsUser → OptionsUser × List Call
  | [], o => (o, [])
  | buf :: rest, o =>
    let r := handleNetbuf build buf o
    let r' := receive build rest r.1
    (r'.1, r.2 ++ r'.2)

/-- The bytes a list of calls hands to `recymeMas`. -/
def handed (calls : List Call) : List UInt8 :=
  calls.flatMap fun
    | .recymeMas data => data
    | _ => []

end Telnet

end SlipBoard
