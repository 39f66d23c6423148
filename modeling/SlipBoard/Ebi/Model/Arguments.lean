import SlipBoard.Common.Block
import SlipBoard.Common.Numerals
import SlipBoard.Common.Traced
import Mathlib.Algebra.Order.Ring.Nat
/-!
# Register access — its arguments

The numbers and the options of `ebi_rw.c`, and the `getopt` it is built
with. Every function logs what it does to the world: the entries of
`argv` it reads, by their index in the vector `main_ebi_rw` was given,
what it passes to `xfprintf`, and `exit`, behind which there is no
answer. An argument vector is the entries that are assigned; a null
pointer is `none`, and a read behind the last entry has no answer
either.
-/

namespace SlipBoard

namespace Ebi

open Numerals Traced

/-- `EBI_RW` and `SPI_RW`. -/
inductive Config
  | ebi
  | spi
  deriving DecidableEq

/-- `MAX_ADDRESS`. -/
def Config.maxAddress : Config → ℕ
  | .ebi => 0x04000000 - 1
  | .spi => 255

/-- `MAXIMUM_ESPI_DATA_SIZE`. -/
def Config.maximumEspiDataSize : Config → ℕ
  | .ebi => 64
  | .spi => 4

/-- An argument of `xfprintf`. -/
inductive Arg
  | str (s : List UInt8)
  | num (n : ℤ)
  deriving DecidableEq

/-- A call of `print_help_ebi_rw`, or one of `xfprintf`. -/
inductive Out
  | help (programName : List UInt8)
  | text (format : String) (args : List Arg)
  deriving DecidableEq

/-- What is logged: an entry of `argv` that is read, a byte of
`package.data` that is written, an unsigned sum before it is cut to its
type, a divisor, what is printed, and `exit (EXIT_FAILURE)`. -/
inductive Event
  | argv (k : ℕ)
  | data (k : ℕ)
  | sum (n : ℕ)
  | divide (d : ℕ)
  | print (o : Out)
  | exit
  deriving DecidableEq

/-- `xfprintf (outputFunction, format, args)`. -/
def xfprintf (format : String) (args : List Arg) : Traced Event Unit :=
  emit (.print (.text format args))

/-- An error that ends the program. -/
def exitFailure {α : Type} (format : String) (args : List Arg) : Traced Event α := do
  xfprintf format args
  emit .exit
  lift none

/-- `argv [k]`. -/
def readArgv (argv : List (Option (List UInt8))) (k : ℕ) : Traced Event (Option (List UInt8)) := do
  emit (.argv k)
  lift argv[k]?

/-! ## Numbers -/

/-- `strrchr`, as an offset. -/
def strrchr : List UInt8 → UInt8 → Option ℕ
  | [], _ => none
  | x :: s, c =>
    match strrchr s c with
    | some k => some (k + 1)
    | none => if x = c then some 0 else none

/-- `ULONG_MAX`. -/
abbrev ulongMax : ℕ := 0xFFFFFFFF

/-- The base of a number, and where `data_string` starts. -/
def dataString (str : List UInt8) : ℕ × ℕ :=
  match strrchr str 120 <|> strrchr str 88 <|> strrchr str 104 <|> strrchr str 72 with
  | some mark => (16, mark + 1)
  | none =>
    match strrchr str 98 <|> strrchr str 66 with
    | some mark => (2, mark + 1)
    | none => (10, 0)

/-- `parse_number`. -/
def parseNumber (str : List UInt8) : Traced Event ℕ :=
  let (base, start) := dataString str
  let r := strtoul ulongMax (str.drop start) base
  let ptr := start + r.used
  -- `ptr` is held against the start of `str`, not of `data_string`
  if ptr ≤ 0 ∨ ptr < str.length ∨ r.erange then
    exitFailure "Error: unknow data formaton in argument \"%s\"\n" [.str str]
  else pure r.value

/-- `parse_data`. -/
def parseData (dataBytes : ℕ) (str : List UInt8) : Traced Event ℕ := do
  let data ← parseNumber str
  if dataBytes = 4 ∧ data > 0xFFFFFFFF then
    exitFailure "Error: argument \"%s\" > UINT32_MAX\n" [.str str]
  else if dataBytes = 2 ∧ data > 0xFFFF then
    exitFailure "Error: argument \"%s\" > UINT16_MAX\n" [.str str]
  else if dataBytes = 1 ∧ data > 0xFF then
    exitFailure "Error: argument \"%s\" > UINT8_MAX\n" [.str str]
  else return data

/-- `parse_address`. -/
def parseAddress (cfg : Config) (str : List UInt8) : Traced Event ℕ := do
  let address ← parseNumber str
  if address > cfg.maxAddress then
    exitFailure "Error: address can not be over 0x%X\n" [.num cfg.maxAddress]
  else return address

/-- `INT_MAX`. -/
abbrev intMax : ℕ := 0x7FFFFFFF

/-- `atoi`. -/
def atoi (str : List UInt8) : ℤ := strtol intMax str 10

/-- The conversion of an `int` to `uint8_t`. -/
def toUint8 (v : ℤ) : ℕ := (v % 256).toNat

/-! ## getopt -/

/-- The static variables of `getopt`. -/
structure Getopt where
  optind : ℕ
  optpos : ℕ
  optopt : UInt8
  optarg : Option (List UInt8)

/-- What `main_ebi_rw` and `getopt` pass as `optstring`. -/
def optstring : List UInt8 := ascii "hdso:b:n:"

/-- `isalnum`. -/
def isalnum (c : UInt8) : Bool :=
  48 ≤ c && c ≤ 57 || 97 ≤ c && c ≤ 122 || 65 ≤ c && c ≤ 90

/-- `strchr`, as an offset. -/
def strchr (s : List UInt8) (c : UInt8) : Option ℕ :=
  if c ∈ s then some (s.idxOf c) else none

/-- `getopt`, and what it returns, `none` for −1. `opterr` is 0, so it
prints nothing. It does not look at `argc`. -/
def getopt (argv : List (Option (List UInt8))) (g : Getopt) :
    Traced Event (Getopt × Option UInt8) := do
  let g := if g.optind = 0 then { g with optind := 1, optpos := 1 } else g
  match ← readArgv argv g.optind with
  | none => return (g, none)
  | some arg =>
    if arg = ascii "--" then return ({ g with optind := g.optind + 1 }, none)
    else if arg.head? ≠ some 45 ∨ ¬ isalnum (arg.getD 1 0) then return (g, none)
    else do
      -- the position never gets to the NUL
      let opt ← lift arg[g.optpos]?
      let g := { g with optopt := opt }
      match strchr optstring opt with
      | none => return (g, some 63)
      | some k =>
        if optstring[k + 1]? = some 58 then
          if g.optpos + 1 < arg.length then
            return ({ g with
              optarg := some (arg.drop (g.optpos + 1))
              optind := g.optind + 1
              optpos := 1 }, some opt)
          else
            match ← readArgv argv (g.optind + 1) with
            | some _ => do
              let optarg ← readArgv argv (g.optind + 1)
              return ({ g with optarg := optarg, optind := g.optind + 2, optpos := 1 }, some opt)
            | none => return (g, some (if optstring.head? = some 58 then 58 else 63))
        else if g.optpos + 1 < arg.length then
          return ({ g with optpos := g.optpos + 1 }, some opt)
        else return ({ g with optind := g.optind + 1, optpos := 1 }, some opt)

/-! ## Options -/

/-- `Options`. -/
structure Options where
  verbose : Bool
  dataSigned : Bool
  addressOffset : ℕ
  dataBase : ℕ
  dataBytes : ℕ
  deriving DecidableEq

/-- The values `main_ebi_rw` starts with. -/
def Options.init : Options := ⟨false, false, 0, 10, 1⟩

/-- A byte option that is one of `allowed`, or the help. -/
def byteOption (programName : List UInt8) (allowed : List ℕ) (optarg : List UInt8)
    (set : ℕ → Options) : Traced Event (Option Options) :=
  let v := toUint8 (atoi optarg)
  if v ∉ allowed then do
    emit (.print (.help programName))
    return none
  else return some (set v)

/-- The switch over an option: `none` where `main_ebi_rw` returns. -/
def handleOption (cfg : Config) (programName : List UInt8) (o : Options) (opt : UInt8)
    (optarg : Option (List UInt8)) : Traced Event (Option Options) :=
  if opt = 111 then do
    let offset ← parseAddress cfg (← lift optarg)
    return some { o with addressOffset := offset }
  else if opt = 98 then do
    byteOption programName [2, 10, 16] (← lift optarg) fun v => { o with dataBase := v }
  else if opt = 110 then do
    byteOption programName [1, 2, 4] (← lift optarg) fun v => { o with dataBytes := v }
  else if opt = 115 then return some { o with dataSigned := true }
  else if opt = 100 then return some { o with verbose := true }
  else do
    emit (.print (.help programName))
    return none

/-- The loop over the options. Where it does not return, it answers the
options and `optind`. -/
def parseOptions (cfg : Config) (argv : List (Option (List UInt8))) (programName : List UInt8) :
    ℕ → Getopt → Options → Traced Event (Option (Options × ℕ))
  | 0, _, _ => lift none
  | fuel + 1, g, o => do
    let (g, opt) ← getopt argv g
    match opt with
    | none => return some (o, g.optind)
    | some opt =>
      match ← handleOption cfg programName o opt g.optarg with
      | none => return none
      | some o => parseOptions cfg argv programName fuel g o

/-- Rounds enough for every character of the vector. -/
def optionRounds (argv : List (Option (List UInt8))) : ℕ :=
  (argv.map fun arg => (arg.getD []).length + 1).sum + 1

end Ebi

end SlipBoard
