import SlipBoard.Ebi.Model.Arguments
/-!
# Register access — the package

`main_ebi_rw`: `package` is what it does up to the point where the data
are ready, and `finish` what is left. The device file is compiled out
and `state` is zero, so nothing comes between the two `swap`s but the
messages of the debug mode.
-/

namespace SlipBoard

namespace Ebi

open Traced

/-- The cut of a number to `uint32_t`. -/
def cut (n : ℕ) : ℕ := n % 2 ^ 32

/-- The difference of two numbers in `uint32_t`. -/
def sub32 (m n : ℕ) : ℕ := cut (m + (2 ^ 32 - n))

/-- `ESPI_RW_Package`. -/
structure Package (cfg : Config) where
  address : ℕ
  spi : ℕ
  isWrite : Bool
  datasize : ℕ
  data : Block cfg.maximumEspiDataSize

variable {cfg : Config}

/-- `package.data [k] = v`. -/
def storeData {n : ℕ} (data : Block n) (k : ℕ) (v : UInt8) : Traced Event (Block n) := do
  emit (.data k)
  lift (data.store k v)

/-- The loop that lays out the data, from byte `i` on. `first` is the
index of the first data argument. -/
def writeLoop {n : ℕ} (dataBytes indexOffset first : ℕ) (argv : List (Option (List UInt8))) :
    ℕ → ℕ → Block n → Traced Event (Block n)
  | 0, _, data => return data
  | left + 1, i, data => do
    emit (.divide dataBytes)
    let arg ← readArgv argv (first + i / dataBytes)
    let tmpData ← parseData dataBytes (← lift arg)
    emit (.divide dataBytes)
    let bytes := dataBytes - i % dataBytes - 1
    emit (.sum (i + indexOffset))
    let data ← storeData data (cut (i + indexOffset)) (UInt8.ofNat (tmpData >>> (8 * bytes)))
    writeLoop dataBytes indexOffset first argv left (i + 1) data

/-- An error that returns. -/
def fail {α : Type} (format : String) (args : List Arg) : Traced Event (Option α) := do
  xfprintf format args
  return none

/-- The package of the two arguments in front of the data. -/
def Package.start (cfg : Config) (first second : ℕ) : Package cfg :=
  match cfg with
  | .ebi => ⟨first, 0, false, second, ⟨fun _ => 0⟩⟩
  | .spi => ⟨second, first % 256, false, 4, ⟨fun _ => 0⟩⟩

/-- The two arguments that follow the options, at `optind`. -/
def positionals (cfg : Config) (argv : List (Option (List UInt8))) (optind : ℕ) :
    Traced Event (Package cfg) := do
  let first ← parseAddress cfg (← lift (← readArgv argv optind))
  let second ← parseAddress cfg (← lift (← readArgv argv (optind + 1)))
  return .start cfg first second

/-- The test of the size of the data words. -/
def wrongSize (cfg : Config) (realDatasize datasize : ℕ) : Bool :=
  match cfg with
  | .ebi => realDatasize ≠ datasize
  | .spi => realDatasize > datasize

/-- The data of a package with `argc` arguments left, the first of them
at `first`. -/
def fillData (o : Options) (argc : ℤ) (argv : List (Option (List UInt8))) (first : ℕ)
    (p : Package cfg) : Traced Event (Option (Package cfg)) :=
  if argc = 0 then return some { p with isWrite := false }
  else do
    let realDatasize := ((o.dataBytes * argc) % 2 ^ 32).toNat
    -- below zero it wraps, and the next test is what keeps it from being used
    let indexOffset := sub32 p.datasize realDatasize
    if wrongSize cfg realDatasize p.datasize then
      fail "Error: datasize not equal to the entered data\n" []
    else do
      let data ← writeLoop o.dataBytes indexOffset first argv realDatasize 0 p.data
      return some { p with isWrite := true, data := data }

/-- The address with the offset, and the test of it. -/
def addOffset (o : Options) (p : Package cfg) : Traced Event (Option (Package cfg)) := do
  emit (.sum (p.address + o.addressOffset))
  let p := { p with address := cut (p.address + o.addressOffset) }
  if cfg = .ebi then do
    emit (.sum (p.address + p.datasize))
    if sub32 (cut (p.address + p.datasize)) 1 > cfg.maxAddress then
      fail "Error: offset+address+datasize can not be over 0x%X\n" [.num cfg.maxAddress]
    else return some p
  else if p.address > cfg.maxAddress then
    fail "Error: offset+address can not be over 0x%X\n" [.num cfg.maxAddress]
  else return some p

/-- `main_ebi_rw` behind the options, with `argc` arguments left, the
first of them at `optind`. -/
def build (cfg : Config) (o : Options) (argc : ℤ) (argv : List (Option (List UInt8))) (optind : ℕ) :
    Traced Event (Option (Options × Package cfg)) :=
  if argc < 2 ∨ argc > 2 + cfg.maximumEspiDataSize then
    fail "Error: data arguments too much or too few\n" []
  else do
    let p ← positionals cfg argv optind
    if p.datasize > cfg.maximumEspiDataSize then
      fail "Error: datasize argument over MAXIMUM_ESPI_DATA_SIZE\n" []
    else if p.datasize = 0 then fail "Error: datasize can not be 0\n" []
    else do
      emit (.divide o.dataBytes)
      if p.datasize % o.dataBytes ≠ 0 then
        fail "Error: datasize not divided on bytesize (-n)\n" []
      else if cfg = .spi ∧ (p.spi < 1 ∨ p.spi > 11) then
        fail "Error: fpga number %d is wrong, should be 1...11\n" [.num p.spi]
      else do
        let p := if cfg = .spi then { p with spi := p.spi - 1 } else p
        match ← fillData o (argc - 2) argv (optind + 2) p with
        | none => return none
        | some p =>
          match ← addOffset o p with
          | none => return none
          | some p => return some (o, p)

/-- `program_name`: what is behind the last slash. -/
def programName (arg0 : List UInt8) : List UInt8 :=
  match strrchr arg0 47 with
  | none => arg0
  | some k => arg0.drop (k + 1)

/-- `main_ebi_rw` up to the end of the loop over the options. -/
def readOptions (cfg : Config) (argv : List (Option (List UInt8))) :
    Traced Event (Option (Options × ℕ)) := do
  let arg0 ← lift (← readArgv argv 0)
  parseOptions cfg argv (programName arg0) (optionRounds argv) ⟨0, 1, 0, none⟩ .init

/-- `main_ebi_rw` up to the first `swap`: `none` where it returns
before. -/
def package (cfg : Config) (argc : ℤ) (argv : List (Option (List UInt8))) :
    Traced Event (Option (Options × Package cfg)) := do
  match ← readOptions cfg argv with
  | none => return none
  | some (o, optind) => build cfg o (argc - optind) argv optind

/-! ## Behind the package -/

/-- The rounds of `swap`, from index `i` on. -/
def swapLoop {n : ℕ} (size : ℕ) : ℕ → ℕ → Block n → Option (Block n)
  | 0, _, data => some data
  | left + 1, i, data => do
    let tmp ← data.load i
    let data ← data.store i (← data.load (size - i - 1))
    let data ← data.store (size - i - 1) tmp
    swapLoop size left (i + 1) data

/-- `swap`. -/
def swap {n : ℕ} (data : Block n) (size : ℕ) : Option (Block n) := swapLoop size (size / 2) 0 data

/-- The loop over `package.data` of the debug messages. -/
def printData (p : Package cfg) : ℕ → ℕ → Traced Event Unit
  | 0, _ => return ()
  | left + 1, i => do
    let byte ← lift (p.data.load i)
    xfprintf "    .data[%2d]: 0x%02X\n" [.num i, .num byte.toNat]
    printData p left (i + 1)

/-- The debug messages in front of the device. -/
def verboseBefore (o : Options) (p : Package cfg) : Traced Event Unit :=
  if o.verbose then do
    if p.isWrite then xfprintf "WRITE:\n" [] else xfprintf "READ:\n" []
    if cfg = .spi then xfprintf "  .spi:       %d\n" [.num p.spi]
    xfprintf "  .address:  0x%08X\n" [.num p.address]
    xfprintf "  .datasize: 0x%08X\n" [.num p.datasize]
    if p.isWrite then printData p p.datasize 0
  else return ()

/-- The debug messages behind it. -/
def verboseAfter (o : Options) (p : Package cfg) : Traced Event Unit :=
  if o.verbose ∧ p.isWrite = false then printData p p.datasize 0 else return ()

/-- The bits of a word, from bit `i - 1` down. -/
def printBits (tmpData : ℕ) : ℕ → Traced Event Unit
  | 0 => return ()
  | i + 1 => do
    xfprintf "%c" [.num (if (tmpData >>> i) % 2 = 1 then 49 else 48)]
    printBits tmpData i

/-- A number of `8 * bytes` bits as a signed one. -/
def toSigned (bytes tmpData : ℕ) : ℤ :=
  if tmpData % 2 ^ (8 * bytes) < 2 ^ (8 * bytes - 1) then (tmpData % 2 ^ (8 * bytes) : ℕ)
  else (tmpData % 2 ^ (8 * bytes) : ℕ) - 2 ^ (8 * bytes)

/-- What is printed for a word that has been put together. -/
def printWord (o : Options) (tmpData : ℕ) : Traced Event Unit := do
  if o.dataBase = 2 then xfprintf "b" []
  else if o.dataBase = 16 then xfprintf "0x" []
  if o.dataBase = 2 then printBits tmpData (8 * o.dataBytes)
  else if o.dataBase = 16 then
    if o.dataBytes = 1 then xfprintf "%02X" [.num tmpData]
    else if o.dataBytes = 2 then xfprintf "%04X" [.num tmpData]
    else if o.dataBytes = 4 then xfprintf "%08X" [.num tmpData]
  else if o.dataBase = 10 then
    if o.dataSigned ∧ (o.dataBytes = 1 ∨ o.dataBytes = 2 ∨ o.dataBytes = 4) then
      xfprintf "%d" [.num (toSigned o.dataBytes tmpData)]
    else xfprintf "%u" [.num tmpData]
  xfprintf "\n" []

/-- The loop that puts the words together and prints them, from byte `i`
on. -/
def readLoop {n : ℕ} (o : Options) (data : Block n) : ℕ → ℕ → ℕ → Traced Event Unit
  | 0, _, _ => return ()
  | left + 1, i, tmpData => do
    let byte ← lift (data.load i)
    let tmpData := cut (tmpData <<< 8) ||| byte.toNat
    emit (.divide o.dataBytes)
    if (i + 1) % o.dataBytes = 0 then do
      printWord o tmpData
      readLoop o data left (i + 1) 0
    else readLoop o data left (i + 1) tmpData

/-- `main_ebi_rw` from the first `swap` on. -/
def finish (o : Options) (p : Package cfg) : Traced Event ℤ := do
  let p := { p with data := ← lift (swap p.data p.datasize) }
  verboseBefore o p
  verboseAfter o p
  let p := { p with data := ← lift (swap p.data p.datasize) }
  if p.isWrite = false then readLoop o p.data p.datasize 0 0
  xfprintf "OK\n" []
  return 0

/-- `main_ebi_rw`. -/
def mainEbiRw (cfg : Config) (argc : ℤ) (argv : List (Option (List UInt8))) : Traced Event ℤ := do
  match ← package cfg argc argv with
  | none => return 0
  | some (o, p) => finish o p

end Ebi

end SlipBoard
