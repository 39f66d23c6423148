import SlipBoard.Ebi.Model.Package
import SlipBoard.Microrl.Model.Commands
import SlipBoard.Microrl.Model.Editor
/-!
# Register access — as a command

The table `taskMicroRl` fills, and what `execute` comes to for the two
programs that look at their arguments. `tkn_arr` has nothing behind the
tokens of a line: no entry is assigned there, and no null pointer.
-/

namespace SlipBoard

namespace Ebi

open Microrl

/-- The functions in the table. -/
inductive Handler
  | printHelp
  | cmdClear
  | printAboutyTask
  | printAbonentConnetcNow
  | printCpuFree
  | printMasCpu
  | ebiRvCmd
  | timeCmd
  deriving DecidableEq

/-- `taskMicroRl`, its calls of `addCmd`. -/
def taskMicroRl : Option (Commands Handler) := do
  let c ← Commands.init.initDefoultCMD .printHelp .cmdClear
  let c ← c.addCmd (ascii "aboutTask") .printAboutyTask
  let c ← c.addCmd (ascii "TelNetAbonentCon") .printAbonentConnetcNow
  let c ← c.addCmd (ascii "CPU_Idle") .printCpuFree
  let c ← c.addCmd (ascii "CPU_Gra") .printMasCpu
  let c ← c.addCmd (ascii "ebi_rv") .ebiRvCmd
  c.addCmd (ascii "time") .timeCmd

/-- `execute`, and the handler it finds: the `argc` that `main_ebi_rw` is
given and its run, where it comes to one. -/
def execute (cfg : Config) : Commands Handler → ℕ → List (List UInt8) → Option (ℕ × Traced Event ℤ)
  | _, _, [] => none
  | c, argc, name :: args => do
    let (c, ran) ← c.execute .printHelp .cmdClear (name :: args)
    match ran with
    | .handler .ebiRvCmd argv => return (argc, mainEbiRw cfg argc (argv.map some))
    -- `time_cmd` looks its second argument up
    | .handler .timeCmd _ => if argc = 1 then none else execute cfg c (argc - 1) args
    | _ => none

/-- What a call of the editor comes to. -/
def runCall (cfg : Config) (k : Call) : Option (ℕ × Traced Event ℤ) := do
  execute cfg (← taskMicroRl) k.argc (← k.argv.mapM k.cmdline.str)

end Ebi

end SlipBoard
