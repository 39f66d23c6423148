import SlipBoard.Ebi.Model.Package
import SlipBoard.Ebi.Options
/-!
# Register access — the package that is let through

What is checked on the way of a package is spread over the options, the
two arguments in front of the data, the count of the data and the
address with its offset. Where `main_ebi_rw` gets to the first `swap`,
the package is well formed, and nothing on its way there wrote past it,
wrapped or divided by zero (`mainEbiRw_wellFormed`).
-/

namespace SlipBoard

namespace Ebi

open Numerals Traced

variable {cfg : Config} {name : List UInt8} {argv : List (Option (List UInt8))} {o : Options}
  {P : Event → Prop}

/-- The last address a package is for. On SPI all of its bytes are for one
address. -/
def Package.last (p : Package cfg) : ℕ :=
  match cfg with
  | .ebi => p.address + p.datasize - 1
  | .spi => p.address

/-- **A package that may be sent**: its size and address are in bounds, the
last address too, and its data are words of the size that was asked for. -/
structure WellFormed (o : Options) (p : Package cfg) : Prop where
  bytes : o.dataBytes ∈ [1, 2, 4]
  divides : o.dataBytes ∣ p.datasize
  pos : 1 ≤ p.datasize
  size_le : p.datasize ≤ cfg.maximumEspiDataSize
  last_le : p.last ≤ cfg.maxAddress
  spi_le : cfg = .spi → p.spi ≤ 10

variable {p : Package cfg}

/-- What must not happen on the way of a package of `size` bytes. -/
def Sound (size : ℕ) : Event → Prop
  | .data k => k < size
  | .sum n => n < 2 ^ 32
  | .divide d => d ≠ 0
  | _ => True

/-! ## Printing and exiting -/

/-- A predicate of events that holds of every print, and so leaves the texts
out of account, -/
structure Prints (P : Event → Prop) : Prop where
  print : ∀ o, P (.print o)

/-- and of `exit`: what is left to be checked are the accesses, the sums and
the divisions. -/
structure Quiet (P : Event → Prop) : Prop extends Prints P where
  exit : P .exit

theorem quiet_sound {size : ℕ} : Quiet (Sound size) :=
  ⟨⟨fun _ => trivial⟩, trivial⟩

theorem Prints.xfprintf (hP : Prints P) (format : String) (args : List Arg) :
    Meets P (xfprintf format args) :=
  meets_emit.2 (hP.print _)

theorem Quiet.exitFailure {α : Type} {Q : α → Prop} (hP : Quiet P) (format : String)
    (args : List Arg) :
    Spec P Q (exitFailure format args) := by
  rw [exitFailure_eq]
  refine ⟨fun e he => ?_, fun a ha => by cases ha⟩
  simp only [List.mem_cons, List.not_mem_nil, or_false] at he
  rcases he with rfl | rfl
  · exact hP.print _
  · exact hP.exit

theorem Prints.fail {α : Type} {Q : Option α → Prop} (hP : Prints P) (format : String)
    (args : List Arg) (hQ : Q none) : Spec P Q (fail format args) :=
  spec_emit_bind (hP.print _) (spec_pure hQ)

theorem Quiet.parseAddress (hP : Quiet P) (str : List UInt8) :
    Spec P (fun v => v ≤ cfg.maxAddress) (parseAddress cfg str) := by
  rcases parseAddress_eq cfg str with ⟨v, heq, hle, -⟩ | ⟨-, format, args, heq⟩
  · rw [heq]
    exact spec_pure hle
  · rw [heq]
    exact hP.exitFailure format args

theorem Quiet.parseData (hP : Quiet P) {dataBytes : ℕ} (hbytes : dataBytes ∈ [1, 2, 4])
    (str : List UInt8) : Spec P (fun _ => True) (parseData dataBytes str) := by
  rcases parseData_eq hbytes str with ⟨v, heq, -⟩ | ⟨-, format, args, heq⟩
  · rw [heq]
    exact spec_pure trivial
  · rw [heq]
    exact hP.exitFailure format args

theorem spec_readArgv {k : ℕ} (hk : P (.argv k)) :
    Spec P (fun a => argv[k]? = some a) (readArgv argv k) :=
  spec_emit_bind hk (spec_lift fun _ h => h)

/-! ## The options -/

/-- What the options are by themselves, before any argument is read: a word
size and an offset in bounds. -/
structure Options.Valid (cfg : Config) (o : Options) : Prop where
  bytes : o.dataBytes ∈ [1, 2, 4]
  offset : o.addressOffset ≤ cfg.maxAddress

theorem Options.valid_init : Options.init.Valid cfg :=
  ⟨by decide, Nat.zero_le _⟩

theorem Quiet.byteOption (hP : Quiet P) (allowed : List ℕ) (arg : List UInt8) (set : ℕ → Options) :
    Spec P (fun r => ∀ o', r = some o' → ∃ v ∈ allowed, o' = set v)
      (byteOption name allowed arg set) := by
  unfold Ebi.byteOption
  by_cases hin : toUint8 (atoi arg) ∈ allowed
  · dsimp only
    rw [if_neg (not_not_intro hin)]
    refine spec_pure ?_
    rintro o' ⟨rfl⟩
    exact ⟨_, hin, rfl⟩
  · dsimp only
    rw [if_pos hin]
    refine spec_emit_bind (hP.print _) (spec_pure ?_)
    rintro o' ⟨⟩

theorem Quiet.handleOption (hP : Quiet P) (ho : o.Valid cfg) (opt : UInt8)
    (optarg : Option (List UInt8)) :
    Spec P (fun r => ∀ o', r = some o' → o'.Valid cfg) (handleOption cfg name o opt optarg) := by
  unfold Ebi.handleOption
  split
  · refine spec_lift_bind fun arg _ => (hP.parseAddress arg).bind fun v _ hv => spec_pure ?_
    rintro o' ⟨rfl⟩
    exact ⟨ho.bytes, hv⟩
  · split
    · refine spec_lift_bind fun arg _ => (hP.byteOption _ arg _).mono ?_
      rintro r hr o' rfl
      obtain ⟨v, -, rfl⟩ := hr o' rfl
      exact ⟨ho.bytes, ho.offset⟩
    · split
      · refine spec_lift_bind fun arg _ => (hP.byteOption _ arg _).mono ?_
        rintro r hr o' rfl
        obtain ⟨v, hv, rfl⟩ := hr o' rfl
        exact ⟨hv, ho.offset⟩
      · split
        · refine spec_pure ?_
          rintro o' ⟨rfl⟩
          exact ⟨ho.bytes, ho.offset⟩
        · split
          · refine spec_pure ?_
            rintro o' ⟨rfl⟩
            exact ⟨ho.bytes, ho.offset⟩
          · refine spec_emit_bind (hP.print _) (spec_pure ?_)
            rintro o' ⟨⟩

/-- `getopt` only reads words of the vector. -/
theorem meets_getopt (hargv : ∀ k, P (.argv k)) (g : Getopt) : Meets P (getopt argv g) := by
  have hread : ∀ k, Meets P (readArgv argv k) := fun k => (spec_readArgv (hargv k)).1
  unfold getopt
  generalize (if g.optind = 0 then { g with optind := 1, optpos := 1 } else g) = g
  refine meets_bind.2 ⟨hread _, fun arg _ => ?_⟩
  rcases arg with _ | arg
  · exact meets_pure _
  · show Meets P (if arg = ascii "--" then _ else _)
    split
    · exact meets_pure _
    · split
      · exact meets_pure _
      · refine meets_bind.2 ⟨meets_lift _, fun opt _ => ?_⟩
        dsimp only
        rcases strchr optstring opt with _ | k
        · exact meets_pure _
        · dsimp only
          split
          · split
            · exact meets_pure _
            · refine meets_bind.2 ⟨hread _, fun next _ => ?_⟩
              rcases next with _ | next
              · exact meets_pure _
              · exact meets_bind.2 ⟨hread _, fun _ _ => meets_pure _⟩
          · split
            · exact meets_pure _
            · exact meets_pure _

/-- The options that the loop leaves with are valid, if those it began with
were. -/
theorem Quiet.parseOptions (hP : Quiet P) (hargv : ∀ k, P (.argv k)) (fuel : ℕ) (g : Getopt)
    (ho : o.Valid cfg) :
    Spec P (fun r => ∀ o' k, r = some (o', k) → o'.Valid cfg)
      (parseOptions cfg argv name fuel g o) := by
  induction fuel generalizing g o with
  | zero => exact spec_lift fun r hr => by cases hr
  | succ fuel ih =>
    have hget : Spec P (fun _ => True) (getopt argv g) := ⟨meets_getopt hargv g, fun _ _ => trivial⟩
    refine hget.bind fun r _ _ => ?_
    obtain ⟨g', _ | opt⟩ := r
    · refine spec_pure ?_
      rintro o' k ⟨rfl, rfl⟩
      exact ho
    · refine (hP.handleOption ho opt g'.optarg).bind fun r _ hr => ?_
      rcases r with _ | o'
      · refine spec_pure ?_
        rintro o' k ⟨⟩
      · exact ih g' (hr o' rfl)

/-! ## The data -/

/-- What the loop over the data reads and writes. -/
theorem Quiet.writeLoop (hP : Quiet P) {size dataBytes indexOffset first total : ℕ}
    (hbytes : dataBytes ∈ [1, 2, 4]) (hdivide : P (.divide dataBytes))
    (hargv : ∀ i < total, P (.argv (first + i / dataBytes)))
    (hsum : ∀ i < total, P (.sum (i + indexOffset)))
    (hdata : ∀ i < total, P (.data (cut (i + indexOffset)))) {left i : ℕ} (hi : i + left = total)
    (data : Block size) :
    Spec P (fun _ => True) (writeLoop dataBytes indexOffset first argv left i data) := by
  induction left generalizing i data with
  | zero => exact spec_pure trivial
  | succ left ih =>
    have hlt : i < total := by omega
    refine spec_emit_bind hdivide ((spec_readArgv (hargv i hlt)).bind fun arg _ _ => ?_)
    refine spec_lift_bind fun str _ => (hP.parseData hbytes str).bind fun v _ _ => ?_
    refine spec_emit_bind hdivide (spec_emit_bind (hsum i hlt) ?_)
    have hstore : Spec P (fun _ => True) (storeData data (cut (i + indexOffset))
        (UInt8.ofNat (v >>> (8 * (dataBytes - i % dataBytes - 1))))) :=
      spec_emit_bind (hdata i hlt) (spec_lift fun _ _ => trivial)
    exact hstore.bind fun data _ _ => ih (by omega) data

/-- The two arguments in front of the data leave an address in bounds. -/
theorem Quiet.positionals (hP : Quiet P) {optind : ℕ} (hfirst : P (.argv optind))
    (hsecond : P (.argv (optind + 1))) :
    Spec P (fun p => p.address ≤ cfg.maxAddress) (positionals cfg argv optind) := by
  refine (spec_readArgv hfirst).bind fun _ _ _ => spec_lift_bind fun first _ => ?_
  refine (hP.parseAddress first).bind fun first _ hle => ?_
  refine (spec_readArgv hsecond).bind fun _ _ _ => spec_lift_bind fun second _ => ?_
  refine (hP.parseAddress second).bind fun second _ hle' => ?_
  cases cfg with
  | ebi => exact spec_pure hle
  | spi => exact spec_pure hle'

theorem cut_of_lt {n : ℕ} (h : n < 2 ^ 32) : cut n = n := Nat.mod_eq_of_lt h

theorem sub32_of_le {m n : ℕ} (hm : m < 2 ^ 32) (hle : n ≤ m) : sub32 m n = m - n := by
  unfold sub32 cut
  omega

theorem maximumEspiDataSize_le (cfg : Config) : cfg.maximumEspiDataSize ≤ 64 := by
  cases cfg <;> decide

theorem maxAddress_lt (cfg : Config) : cfg.maxAddress < 2 ^ 26 := by
  cases cfg <;> decide

/-- The size of the data words. -/
theorem realDatasize_eq (cfg : Config) {argc : ℤ} (hbytes : o.dataBytes ∈ [1, 2, 4])
    (hpos : 0 ≤ argc) (hle : argc ≤ cfg.maximumEspiDataSize) :
    ((o.dataBytes * argc) % 2 ^ 32).toNat = o.dataBytes * argc.toNat := by
  have hmax := maximumEspiDataSize_le cfg
  simp only [List.mem_cons, List.not_mem_nil, or_false] at hbytes
  rcases hbytes with h | h | h <;> rw [h] <;> omega

theorem wrongSize_ebi {real size : ℕ} : wrongSize .ebi real size = false ↔ real = size := by
  simp [wrongSize]

theorem wrongSize_spi {real size : ℕ} : wrongSize .spi real size = false ↔ real ≤ size := by
  simp [wrongSize]

theorem le_of_wrongSize {real size : ℕ} (h : wrongSize cfg real size = false) : real ≤ size := by
  cases cfg with
  | ebi => exact (wrongSize_ebi.1 h).le
  | spi => exact wrongSize_spi.1 h

theorem Quiet.fillData (hP : Quiet P) {argc : ℤ} {first : ℕ} (hbytes : o.dataBytes ∈ [1, 2, 4])
    (hpos : 0 ≤ argc) (hle : argc ≤ cfg.maximumEspiDataSize)
    (hsize : p.datasize ≤ cfg.maximumEspiDataSize) (hdivide : P (.divide o.dataBytes))
    (hargv : ∀ k, first ≤ k → (k : ℤ) < first + argc → P (.argv k))
    (hsum : ∀ n < 2 ^ 32, P (.sum n)) (hdata : ∀ k < p.datasize, P (.data k)) :
    Spec P (fun r => ∀ q, r = some q →
        q.address = p.address ∧ q.datasize = p.datasize ∧ q.spi = p.spi)
      (fillData o argc argv first p) := by
  unfold Ebi.fillData
  split
  · refine spec_pure ?_
    rintro q ⟨rfl⟩
    exact ⟨rfl, rfl, rfl⟩
  · rw [realDatasize_eq cfg hbytes hpos hle]
    dsimp only
    split
    · exact hP.fail _ _ (by rintro q ⟨⟩)
    · rename_i hwrong
      have hreal := le_of_wrongSize (Bool.eq_false_iff.2 hwrong)
      have hmax := maximumEspiDataSize_le cfg
      have hoffset : sub32 p.datasize (o.dataBytes * argc.toNat) =
          p.datasize - o.dataBytes * argc.toNat :=
        sub32_of_le (by omega) hreal
      have hbytespos : 0 < o.dataBytes := by
        simp only [List.mem_cons, List.not_mem_nil, or_false] at hbytes
        omega
      have hwrite : Spec P (fun _ => True) (Ebi.writeLoop o.dataBytes
          (sub32 p.datasize (o.dataBytes * argc.toNat)) first argv
          (o.dataBytes * argc.toNat) 0 p.data) := by
        rw [hoffset]
        refine hP.writeLoop hbytes hdivide (fun i hi => ?_) (fun i hi => hsum _ ?_)
          (fun i hi => hdata _ ?_) (Nat.zero_add _) p.data
        · have hdiv : i / o.dataBytes < argc.toNat := Nat.div_lt_of_lt_mul hi
          exact hargv _ (Nat.le_add_right _ _) (by omega)
        · omega
        · rw [cut_of_lt (by omega)]
          omega
      refine hwrite.bind fun data _ _ => spec_pure ?_
      rintro q ⟨rfl⟩
      exact ⟨rfl, rfl, rfl⟩

theorem Prints.addOffset (hP : Prints P) (hoffset : o.addressOffset ≤ cfg.maxAddress)
    (haddress : p.address ≤ cfg.maxAddress) (hpos : 0 < p.datasize)
    (hsize : p.datasize ≤ cfg.maximumEspiDataSize) (hsum : ∀ n < 2 ^ 32, P (.sum n)) :
    Spec P (fun r => ∀ q, r = some q →
      q.datasize = p.datasize ∧ q.spi = p.spi ∧ q.last ≤ cfg.maxAddress) (addOffset o p) := by
  have hmax := maximumEspiDataSize_le cfg
  have hlt := maxAddress_lt cfg
  have hsum₁ : p.address + o.addressOffset < 2 ^ 32 := by omega
  have hsum₂ : p.address + o.addressOffset + p.datasize < 2 ^ 32 := by omega
  have hcut : cut (p.address + o.addressOffset) = p.address + o.addressOffset := cut_of_lt hsum₁
  unfold Ebi.addOffset
  refine spec_emit_bind (hsum _ hsum₁) ?_
  rw [hcut]
  dsimp only
  split
  · rename_i hcfg
    subst hcfg
    refine spec_emit_bind (hsum _ hsum₂) ?_
    split
    · exact hP.fail _ _ (by rintro q ⟨⟩)
    · rename_i hle
      refine spec_pure ?_
      rintro q ⟨rfl⟩
      refine ⟨rfl, rfl, ?_⟩
      show p.address + o.addressOffset + p.datasize - 1 ≤ _
      rw [cut_of_lt hsum₂, sub32_of_le hsum₂ (by omega)] at hle
      omega
  · rename_i hcfg
    split
    · exact hP.fail _ _ (by rintro q ⟨⟩)
    · rename_i hle
      refine spec_pure ?_
      rintro q ⟨rfl⟩
      refine ⟨rfl, rfl, ?_⟩
      cases cfg with
      | ebi => exact absurd rfl hcfg
      | spi => exact not_lt.1 hle

/-! ## The package -/

/-- **`main_ebi_rw` behind the options** makes only events that are
admitted, and where it builds a package, a well-formed one. -/
theorem Quiet.build (hP : Quiet P) {argc : ℤ} {optind : ℕ} (ho : o.Valid cfg)
    (hdivide : P (.divide o.dataBytes))
    (hargv : ∀ k, optind ≤ k → (k : ℤ) < optind + argc → P (.argv k))
    (hsum : ∀ n < 2 ^ 32, P (.sum n))
    (hdata : ∀ q, (Ebi.positionals cfg argv optind).answer = some q →
      q.datasize ≤ cfg.maximumEspiDataSize → ∀ k < q.datasize, P (.data k)) :
    Spec P (fun r => ∀ o' q, r = some (o', q) → WellFormed o' q ∧
        ∃ q', (Ebi.positionals cfg argv optind).answer = some q' ∧ q'.datasize = q.datasize)
      (Ebi.build cfg o argc argv optind) := by
  unfold Ebi.build
  split
  · exact hP.fail _ _ (by rintro o' q ⟨⟩)
  rename_i hargc
  rw [not_or] at hargc
  refine (hP.positionals (hargv _ le_rfl (by omega)) (hargv _ (Nat.le_succ _) (by omega))).bind
    fun p hp hpos => ?_
  split
  · exact hP.fail _ _ (by rintro o' q ⟨⟩)
  rename_i hsize
  rw [not_lt] at hsize
  split
  · exact hP.fail _ _ (by rintro o' q ⟨⟩)
  rename_i hzero
  refine spec_emit_bind hdivide ?_
  split
  · exact hP.fail _ _ (by rintro o' q ⟨⟩)
  rename_i hdivides
  split
  · exact hP.fail _ _ (by rintro o' q ⟨⟩)
  rename_i hspi
  have hp' : ∀ p' : Package cfg, p' = (if cfg = .spi then { p with spi := p.spi - 1 } else p) →
      p'.address = p.address ∧ p'.datasize = p.datasize ∧ (cfg = .spi → p'.spi ≤ 10) := by
    rintro p' rfl
    split
    · rename_i hcfg
      refine ⟨rfl, rfl, fun _ => ?_⟩
      have hle : p.spi ≤ 11 := not_lt.1 fun h => hspi ⟨hcfg, Or.inr h⟩
      show p.spi - 1 ≤ 10
      omega
    · rename_i hcfg
      exact ⟨rfl, rfl, fun h => absurd h hcfg⟩
  generalize (if cfg = .spi then { p with spi := p.spi - 1 } else p) = p' at hp'
  obtain ⟨haddress, hdatasize, hspi'⟩ := hp' p' rfl
  rw [← hdatasize] at hsize hzero hdivides
  refine (hP.fillData ho.bytes (by omega) (by omega) hsize hdivide
    (fun k hk hlt => hargv k (by omega) (by omega)) hsum
    fun k hk => hdata p hp (hdatasize ▸ hsize) k (hdatasize ▸ hk)).bind fun r _ hr => ?_
  rcases r with _ | q
  · exact spec_pure (by rintro o' q ⟨⟩)
  obtain ⟨hqaddress, hqsize, hqspi⟩ := hr q rfl
  have haddress' : q.address ≤ cfg.maxAddress := by
    rw [hqaddress, haddress]
    exact hpos
  refine (hP.addOffset ho.offset haddress' (by omega) (by omega) hsum).bind fun r _ hr => ?_
  rcases r with _ | q'
  · exact spec_pure (by rintro o' q ⟨⟩)
  obtain ⟨hsize', hspi'', hle⟩ := hr q' rfl
  refine spec_pure ?_
  rintro o' q'' ⟨rfl, rfl⟩
  refine ⟨⟨ho.bytes, ?_, by omega, by omega, hle, ?_⟩, p, hp, by omega⟩
  · rw [hsize', hqsize]
    exact Nat.dvd_of_mod_eq_zero (not_not.1 hdivides)
  · intro hcfg
    rw [hspi'', hqspi]
    exact hspi' hcfg

theorem Quiet.readOptions (hP : Quiet P) (hargv : ∀ k, P (.argv k)) :
    Spec P (fun r => ∀ o k, r = some (o, k) → o.Valid cfg) (readOptions cfg argv) :=
  (spec_readArgv (hargv 0)).bind fun _ _ _ => spec_lift_bind fun _ _ =>
    hP.parseOptions hargv _ _ Options.valid_init

/-- `main_ebi_rw` up to the first `swap`. -/
theorem Quiet.package (hP : Quiet P) (hargv : ∀ k, P (.argv k)) (hsum : ∀ n < 2 ^ 32, P (.sum n))
    (hdivide : ∀ d, d ≠ 0 → P (.divide d)) (argc : ℤ)
    (hdata : ∀ o optind q, (Ebi.readOptions cfg argv).answer = some (some (o, optind)) →
      (Ebi.positionals cfg argv optind).answer = some q →
        q.datasize ≤ cfg.maximumEspiDataSize → ∀ k < q.datasize, P (.data k)) :
    Spec P (fun r => ∀ o q, r = some (o, q) → WellFormed o q ∧
        ∃ o' optind q', (Ebi.readOptions cfg argv).answer = some (some (o', optind)) ∧
          (Ebi.positionals cfg argv optind).answer = some q' ∧ q'.datasize = q.datasize)
      (Ebi.package cfg argc argv) := by
  refine (hP.readOptions hargv).bind fun r hr hvalid => ?_
  rcases r with _ | ⟨o, optind⟩
  · exact spec_pure (by rintro o q ⟨⟩)
  have ho := hvalid o optind rfl
  have hne : o.dataBytes ≠ 0 := by
    intro h
    have hbytes := ho.bytes
    simp [h] at hbytes
  refine (hP.build ho (hdivide _ hne) (fun k _ _ => hargv k) hsum
    fun q => hdata o optind q hr).mono ?_
  rintro r hbuild o' q rfl
  obtain ⟨hwf, q', hq', hsize⟩ := hbuild o' q rfl
  exact ⟨hwf, o, optind, q', hr, hq', hsize⟩

/-! ## Behind it -/

theorem Prints.printData (hP : Prints P) (left i : ℕ) : Meets P (printData p left i) := by
  induction left generalizing i with
  | zero => exact meets_pure _
  | succ left ih =>
    exact meets_bind.2 ⟨meets_lift _, fun _ _ => meets_bind.2 ⟨hP.xfprintf _ _, fun _ _ => ih _⟩⟩

theorem Prints.printBits (hP : Prints P) (tmpData i : ℕ) : Meets P (printBits tmpData i) := by
  induction i with
  | zero => exact meets_pure _
  | succ i ih => exact meets_bind.2 ⟨hP.xfprintf _ _, fun _ _ => ih⟩

theorem Prints.verboseBefore (hP : Prints P) : Meets P (verboseBefore o p) := by
  unfold Ebi.verboseBefore
  simp [meets_bind, apply_ite (Meets P), hP.xfprintf, hP.printData]

theorem Prints.verboseAfter (hP : Prints P) : Meets P (verboseAfter o p) := by
  unfold Ebi.verboseAfter
  split
  · exact hP.printData _ _
  · exact meets_pure _

theorem Prints.printWord (hP : Prints P) (tmpData : ℕ) : Meets P (printWord o tmpData) := by
  unfold Ebi.printWord
  simp [meets_bind, apply_ite (Meets P), hP.xfprintf, hP.printBits]

/-- The loop that puts the words together. -/
theorem Prints.readLoop (hP : Prints P) {size : ℕ} (hdivide : P (.divide o.dataBytes))
    (data : Block size) (left i tmpData : ℕ) : Meets P (readLoop o data left i tmpData) := by
  induction left generalizing i tmpData with
  | zero => exact meets_pure _
  | succ left ih =>
    refine meets_bind.2 ⟨meets_lift _,
      fun byte _ => meets_bind.2 ⟨meets_emit.2 hdivide, fun _ _ => ?_⟩⟩
    split
    · exact meets_bind.2 ⟨hP.printWord _, fun _ _ => ih _ _⟩
    · exact ih _ _

theorem Prints.finish (hP : Prints P) (hdivide : P (.divide o.dataBytes)) :
    Meets P (finish o p) := by
  refine meets_bind.2 ⟨meets_lift _, fun data _ => meets_bind.2 ⟨hP.verboseBefore, fun _ _ => ?_⟩⟩
  refine meets_bind.2 ⟨hP.verboseAfter, fun _ _ => meets_bind.2 ⟨meets_lift _, fun data _ => ?_⟩⟩
  dsimp only
  split
  · refine meets_bind.2 ⟨hP.readLoop hdivide _ _ _ _, fun _ _ => ?_⟩
    exact meets_bind.2 ⟨hP.xfprintf _ _, fun _ _ => meets_pure _⟩
  · exact meets_bind.2 ⟨hP.xfprintf _ _, fun _ _ => meets_pure _⟩

/-- **A package that is let through is well formed.** Whatever the
argument vector, nothing divides by zero and no sum wraps; and where
`main_ebi_rw` gets to the first `swap`, the package may be sent, and
every byte written is one of its own. -/
theorem mainEbiRw_wellFormed (cfg : Config) (argc : ℤ) (argv : List (Option (List UInt8))) :
    Meets (Sound cfg.maximumEspiDataSize) (mainEbiRw cfg argc argv) ∧
    ∀ o q, (package cfg argc argv).answer = some (some (o, q)) →
      WellFormed o q ∧ Meets (Sound q.datasize) (mainEbiRw cfg argc argv) := by
  have hmain : ∀ size, Spec (Sound size) (fun r => ∀ o q, r = some (o, q) → WellFormed o q)
      (package cfg argc argv) → Meets (Sound size) (mainEbiRw cfg argc argv) := by
    intro size h
    refine (h.bind fun r _ hr => ?_ : Spec (Sound size) (fun _ => True) _).1
    rcases r with _ | ⟨o, q⟩
    · exact spec_pure trivial
    · have hne : o.dataBytes ≠ 0 := by
        intro hzero
        have hbytes := (hr o q rfl).bytes
        simp [hzero] at hbytes
      exact ⟨quiet_sound.toPrints.finish hne, fun _ _ => trivial⟩
  have hpackage : ∀ size, (∀ o optind q, (readOptions cfg argv).answer = some (some (o, optind)) →
      (positionals cfg argv optind).answer = some q → q.datasize ≤ cfg.maximumEspiDataSize →
        q.datasize ≤ size) → _ := fun size hsize =>
    (quiet_sound : Quiet (Sound size)).package (fun _ => trivial) (fun _ h => h) (fun _ h => h) argc
      fun o optind q ho hq hle k hk => hk.trans_le (hsize o optind q ho hq hle)
  refine ⟨hmain _ ?_, fun o q hq => ?_⟩
  · exact (hpackage _ fun _ _ _ _ _ h => h).mono fun r hr o q h => (hr o q h).1
  · obtain ⟨hwf, o', optind, q', ho', hq', hsize⟩ :=
      (hpackage _ fun _ _ _ _ _ h => h).2 _ hq o q rfl
    refine ⟨hwf, hmain _ ((hpackage _ ?_).mono fun r hr o q h => (hr o q h).1)⟩
    intro o'' optind'' q'' ho'' hq'' hle
    rw [ho'] at ho''
    cases ho''
    rw [hq'] at hq''
    cases hq''
    exact hsize.le

/-- A register read, with an offset and words of two bytes. -/
theorem mainEbiRw_wellFormed_read : ∃ o q,
    (package .spi 5 (["ebi_rv", "-n2", "-o0x10", "4", "0x20"].map fun w => some (ascii w))).answer =
      some (some (o, q)) ∧ WellFormed o q ∧ q.address = 0x30 := by
  have hsome : ((package .spi 5
      (["ebi_rv", "-n2", "-o0x10", "4", "0x20"].map fun w => some (ascii w))).answer.join.map
        fun r => r.2.address) = some 0x30 := by
    decide +kernel
  obtain ⟨⟨o, q⟩, hq, haddress⟩ := Option.map_eq_some_iff.1 hsome
  have hanswer := Option.join_eq_some_iff.1 hq
  exact ⟨o, q, hanswer, ((mainEbiRw_wellFormed _ _ _).2 o q hanswer).1, haddress⟩

end Ebi

end SlipBoard
