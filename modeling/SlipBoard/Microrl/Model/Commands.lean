import SlipBoard.Common.Block
/-!
# Line editor — the command table

`addCmd`, `execute` and `complet` of `misc.c`, on the three arrays they
share. A cell outside an array, and a null pointer where a string is
read, give no answer. `H` is the type of the handlers; what a handler
does is not modelled here, and `execute` answers which one it calls.
-/

namespace SlipBoard

namespace Microrl

/-- `SIZE_MAS_CMD`. -/
abbrev sizeMasCmd : ℕ := 10

/-- `CmdStruct`. -/
structure CmdStruct (H : Type) where
  cmdName : List UInt8
  execCmd : H

/-- The command table: `masCMD`, `keyworld`, `compl_world`, `sizeCmd`. -/
structure Commands (H : Type) where
  masCmd : Vector (Option (CmdStruct H)) sizeMasCmd
  keyworld : Vector (Option (List UInt8)) sizeMasCmd
  complWorld : Vector (Option (List UInt8)) (sizeMasCmd + 1)
  sizeCmd : ℕ

/-- `xs [i] = v`, inside the array. -/
def put {α : Type} {n : ℕ} (xs : Vector α n) (i : ℕ) (v : α) : Option (Vector α n) :=
  if h : i < n then some (xs.set i v h) else none

/-- `strstr`, as an offset. -/
def strstr : List UInt8 → List UInt8 → Option ℕ
  | [], bit => if bit = [] then some 0 else none
  | c :: s, bit => if bit.isPrefixOf (c :: s) then some 0 else (strstr s bit).map (· + 1)

/-- What `execute` ends with: it returns what a handler returns, or
prints that there is none and returns −1. -/
inductive Ran (H : Type)
  | handler (execCmd : H) (argv : List (List UInt8))
  | notFound (name : List UInt8)
  deriving DecidableEq

namespace Commands

variable {H : Type} (c : Commands H)

/-- The table as the program starts. -/
def init : Commands H :=
  ⟨Vector.replicate _ none, Vector.replicate _ none, Vector.replicate _ none, 0⟩

/-- `addCmd`. -/
def addCmd (name : List UInt8) (execCmd : H) : Option (Commands H) :=
  if c.sizeCmd = sizeMasCmd then some c
  else do
    let masCmd ← put c.masCmd c.sizeCmd (some ⟨name, execCmd⟩)
    let keyworld ← put c.keyworld c.sizeCmd (some name)
    return { c with masCmd := masCmd, keyworld := keyworld, sizeCmd := c.sizeCmd + 1 }

/-- `initDefoultCMD`. -/
def initDefoultCMD (printHelp cmdClear : H) : Option (Commands H) := do
  (← c.addCmd (ascii "help") printHelp).addCmd (ascii "clear") cmdClear

/-- The loop of `execute`, from index `i` on. -/
def search (name : List UInt8) : ℕ → ℕ → Option (Option H)
  | 0, _ => some none
  | left + 1, i => do
    let cmd ← (← c.masCmd[i]?)
    if name = cmd.cmdName then return some cmd.execCmd else search name left (i + 1)

/-- `execute`. -/
def execute (printHelp cmdClear : H) (argv : List (List UInt8)) : Option (Commands H × Ran H) := do
  let c ← if c.sizeCmd = 0 then c.initDefoultCMD printHelp cmdClear else some c
  let name ← argv.head?
  match ← c.search name c.sizeCmd 0 with
  | some execCmd => return (c, .handler execCmd argv)
  | none => return (c, .notFound name)

/-- The loop of `complet` over a token, from index `i` on, and `j`. -/
def completLoop (bit : List UInt8) : ℕ → ℕ → ℕ → Vector (Option (List UInt8)) (sizeMasCmd + 1) →
    Option (Vector (Option (List UInt8)) (sizeMasCmd + 1) × ℕ)
  | 0, _, j, compl => some (compl, j)
  | left + 1, i, j, compl => do
    let name ← (← c.keyworld[i]?)
    if strstr name bit = some 0 then
      completLoop bit left (i + 1) (j + 1) (← put compl j (some name))
    else completLoop bit left (i + 1) j compl

/-- The loop of `complet` without a token, from `j` on. -/
def copyLoop : ℕ → ℕ → Vector (Option (List UInt8)) (sizeMasCmd + 1) →
    Option (Vector (Option (List UInt8)) (sizeMasCmd + 1) × ℕ)
  | 0, j, compl => some (compl, j)
  | left + 1, j, compl => do copyLoop left (j + 1) (← put compl j (← c.keyworld[j]?))

/-- `complet`. What it returns is `compl_world`. -/
def complet (argv : List (List UInt8)) : Option (Commands H) := do
  let compl ← put c.complWorld 0 none
  let (compl, j) ← match argv.getLast? with
    | some bit => c.completLoop bit c.sizeCmd 0 0 compl
    | none => c.copyLoop c.sizeCmd 0 compl
  let compl ← put compl j none
  return { c with complWorld := compl }

end Commands

end Microrl

end SlipBoard
