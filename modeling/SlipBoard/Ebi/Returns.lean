import SlipBoard.Ebi.Words
/-!
# Register access — what stops the program

The errors of `main_ebi_rw` itself return; those of `parse_number`,
`parse_data` and `parse_address` exit. So it returns to its caller but
for a string that is parsed and rejected: the value of -o behind options
that pass, an argument in front of the data, or a word of data where the
sizes agree (`returns_iff`).
-/

namespace SlipBoard

namespace Ebi

open Numerals Traced

variable {cfg : Config} {argv tail : List (Option (List UInt8))} {o : Options}
  {args data words : List (List UInt8)} {w first second : List UInt8} {n : ℕ}

/-- **It returns to its caller**: there is no `exit`, and where something
is printed before the data are ready, it has returned there. -/
def Returns (cfg : Config) (words : List (List UInt8)) : Prop :=
  Event.exit ∉ (mainEbiRw cfg words.length (vector true words)).log ∧
  (mainEbiRw cfg words.length (vector true words)).answer = some 0 ∧
  ((∃ out, Event.print out ∈ (package cfg words.length (vector true words)).log) →
    (package cfg words.length (vector true words)).answer = some none)

/-- The sizes agree: the numbers `a` and `b` in front of the data let
`count` words of `n` bytes be parsed. -/
def Fits (cfg : Config) (n a b count : ℕ) : Prop :=
  match cfg with
  | .ebi => n * count = b ∧ 1 ≤ b ∧ b ≤ 64
  | .spi => n * count ≤ 4 ∧ 1 ≤ a ∧ a ≤ 11

/-- Behind the options a string is parsed and rejected. Strings behind a
check that fails are not parsed at all. -/
def RefusesArguments (cfg : Config) (n : ℕ) (left : List (List UInt8)) : Prop :=
  left.length ≤ 2 + cfg.maximumEspiDataSize ∧
  ∃ first second data, left = first :: second :: data ∧
    (¬ IsAddress cfg first ∨ ¬ IsAddress cfg second ∨
      (∃ a b, Accepts first a ∧ Accepts second b ∧ Fits cfg n a b data.length) ∧
        ∃ w ∈ data, ¬ IsData n w)

/-- **A string is parsed and rejected**: the value of an option behind
options that pass, or, where all pass, one of the arguments behind them. -/
def Rejects (cfg : Config) (words : List (List UInt8)) : Prop :=
  Refuses cfg (items words).1 ∨
  (∀ it ∈ (items words).1, Passes cfg it) ∧ ∃ left, (items words).2 = .rest left ∧
    RefusesArguments cfg (Options.init.adds (items words).1).dataBytes left

/-- An event other than `exit`, behind which the program goes on. -/
def Stays (e : Event) : Prop := e ≠ .exit

theorem prints_stays : Prints Stays :=
  ⟨fun _ => by simp [Stays]⟩

/-! ## The data -/

/-- Behind a rejection nothing counts. -/
theorem exact_exits {α β : Type} {good : Prop} {Q : β → Prop} (format : String) (as : List Arg)
    (f : α → Traced Event β) (hgood : ¬ good) :
    Exact Stays good Q ((⟨[.print (.text format as), .exit], none⟩ : Traced Event α) >>= f) := by
  refine exact_bind_of_not_meets (fun h => ?_) hgood
  exact h .exit (by simp) rfl

theorem exact_fail {α : Type} {good : Prop} {Q : Option α → Prop} (format : String) (as : List Arg)
    (hgood : good) (hQ : Q none) : Exact Stays good Q (fail format as) :=
  exact_bind rfl (prints_stays.xfprintf _ _) (exact_pure hgood hQ)

/-- **The write loop exits exactly where it parses a word it rejects**, and
it parses each of its words once for each of their bytes. -/
theorem writeLoop_exact (hn : n ∈ [1, 2, 4]) {k m : ℕ} (offset : ℕ)
    (hargv : argv.drop k = args.map some ++ tail) (hfit : offset + n * args.length ≤ m)
    (hm : m < 2 ^ 32) {left i : ℕ} (hi : i + left = n * args.length) (d : Block m) :
    Exact Stays (∀ j, i ≤ j → ∀ w, j < n * args.length → args[j / n]? = some w → IsData n w)
      (fun _ => True) (writeLoop n offset k argv left i d) := by
  induction left generalizing i d with
  | zero => exact exact_pure (fun j hij w hj => by omega) trivial
  | succ left ih =>
    have hword : i / n < args.length := Nat.div_lt_of_lt_mul (by omega)
    have hat : args[i / n]? = some args[i / n] := List.getElem?_eq_getElem hword
    have harg : argv[k + i / n]? = some (some args[i / n]) := by
      rw [← List.getElem?_drop, hargv, List.getElem?_append_left (by rwa [List.length_map]),
        List.getElem?_map, hat]
      rfl
    have hcut : cut (i + offset) = i + offset := cut_of_lt (by omega)
    have hstays : ∀ e : Event, e ≠ .exit → Meets Stays (emit e : Traced Event Unit) :=
      fun e he => meets_emit.2 he
    unfold writeLoop
    rw [readArgv_of_some harg]
    refine exact_bind rfl (hstays _ (by simp))
      (exact_bind rfl ?_ (exact_bind rfl (meets_lift _) ?_))
    · simp [Meets, Stays]
    rcases parseData_eq hn args[i / n] with ⟨v, heq, hlt, hiff⟩ | ⟨hno, format, as, heq⟩
    · have hdata : IsData n args[i / n] := ⟨v, (hiff v).2 rfl, hlt⟩
      rw [heq]
      refine exact_bind rfl (meets_pure _) (exact_bind rfl (hstays _ (by simp))
        (exact_bind rfl (hstays _ (by simp)) ?_))
      have hstore : storeData d (cut (i + offset)) (UInt8.ofNat (v >>> (8 * (n - i % n - 1)))) =
          ⟨[.data (i + offset)],
            some (d.set (i + offset) (UInt8.ofNat (v >>> (8 * (n - i % n - 1)))))⟩ := by
        rw [storeData, hcut, Block.store_of_lt (by omega)]
        rfl
      rw [hstore]
      refine exact_bind rfl (by simp [Meets, Stays]) ((ih (by omega) _).congr ?_)
      constructor
      · intro h j hij w hj hw
        rcases Nat.lt_or_eq_of_le hij with hlt | rfl
        · exact h j hlt w hj hw
        · rw [hat] at hw
          exact Option.some.inj hw ▸ hdata
      · exact fun h j hij => h j (by omega)
    · rw [heq]
      exact exact_exits format as _ fun h => hno (h i le_rfl _ (by omega) hat)

/-- The words of the loop are all of them. -/
theorem forall_place_iff (hn : 0 < n) :
    (∀ j, 0 ≤ j → ∀ w, j < n * args.length → args[j / n]? = some w → IsData n w) ↔
    ∀ w ∈ args, IsData n w := by
  constructor
  · intro h w hw
    obtain ⟨k, hk⟩ := List.mem_iff_getElem?.1 hw
    have hlt := (List.getElem?_eq_some_iff.1 hk).1
    have hplace : n * k / n = k := Nat.mul_div_cancel_left _ hn
    exact h (n * k) (Nat.zero_le _) w (Nat.mul_lt_mul_of_pos_left hlt hn) (by rwa [hplace])
  · exact fun h j _ w _ hw => h w (List.mem_of_getElem? hw)

theorem fillData_exact {k : ℕ} (hn : o.dataBytes ∈ [1, 2, 4])
    (hargv : argv.drop k = args.map some ++ tail) (hlen : args.length ≤ cfg.maximumEspiDataSize)
    (p : Package cfg) (hsize : p.datasize ≤ cfg.maximumEspiDataSize) :
    Exact Stays (wrongSize cfg (o.dataBytes * args.length) p.datasize = true ∨
      ∀ w ∈ args, IsData o.dataBytes w) (fun _ => True) (fillData o args.length argv k p) := by
  have hpos := pos_of_mem hn
  have hmax := maximumEspiDataSize_le cfg
  have hreal : ((o.dataBytes * (args.length : ℤ)) % 2 ^ 32).toNat = o.dataBytes * args.length :=
    realDatasize_eq cfg hn (by omega) (by omega)
  unfold fillData
  rw [hreal]
  split
  · rename_i hzero
    obtain rfl : args = [] := List.length_eq_zero_iff.1 (by omega)
    exact exact_pure (Or.inr (by simp)) trivial
  · dsimp only
    split
    · rename_i hwrong
      exact exact_fail _ _ (Or.inl hwrong) trivial
    · rename_i hwrong
      have hle := le_of_wrongSize (Bool.eq_false_iff.2 hwrong)
      have hoffset : sub32 p.datasize (o.dataBytes * args.length) =
          p.datasize - o.dataBytes * args.length :=
        sub32_of_le (by omega) hle
      have hfit : p.datasize - o.dataBytes * args.length + o.dataBytes * args.length ≤
          cfg.maximumEspiDataSize := by omega
      have hsmall : cfg.maximumEspiDataSize < 2 ^ 32 := by omega
      have hwrite := writeLoop_exact (i := 0) hn (p.datasize - o.dataBytes * args.length) hargv
        hfit hsmall (Nat.zero_add _) p.data
      rw [hoffset, or_iff_right hwrong]
      exact (hwrite.bind fun d _ => exact_pure trivial trivial).congr (forall_place_iff hpos)

/-- The address is not parsed again. -/
theorem addOffset_exact (p : Package cfg) : Exact Stays True (fun _ => True) (addOffset o p) := by
  have hsum : ∀ n, Meets Stays (emit (.sum n) : Traced Event Unit) :=
    fun n => meets_emit.2 (by simp [Stays])
  unfold addOffset
  refine exact_bind (answer_emit _) (hsum _) ?_
  dsimp only
  split
  · refine exact_bind (answer_emit _) (hsum _) ?_
    split
    · exact exact_fail _ _ trivial trivial
    · exact exact_pure trivial trivial
  · split
    · exact exact_fail _ _ trivial trivial
    · exact exact_pure trivial trivial

/-! ## Behind the options -/

/-- The checks between the arguments and the data. -/
theorem fits_iff (hn : n ∈ [1, 2, 4]) (count : ℕ) {a : ℕ} (ha : a ≤ cfg.maxAddress) (b : ℕ) :
    Fits cfg n a b count ↔ (Package.start cfg a b).datasize ≤ cfg.maximumEspiDataSize ∧
      (Package.start cfg a b).datasize ≠ 0 ∧ (Package.start cfg a b).datasize % n = 0 ∧
      ¬ (cfg = .spi ∧ ((Package.start cfg a b).spi < 1 ∨ (Package.start cfg a b).spi > 11)) ∧
      wrongSize cfg (n * count) (Package.start cfg a b).datasize = false := by
  cases cfg with
  | ebi =>
    show n * count = b ∧ 1 ≤ b ∧ b ≤ 64 ↔ b ≤ 64 ∧ b ≠ 0 ∧ b % n = 0 ∧
      ¬ (Config.ebi = .spi ∧ _) ∧ wrongSize .ebi (n * count) b = false
    rw [wrongSize_ebi]
    constructor
    · rintro ⟨rfl, hpos, hle⟩
      exact ⟨hle, Nat.pos_iff_ne_zero.1 hpos, Nat.mul_mod_right _ _, by simp, rfl⟩
    · rintro ⟨hle, hne, -, -, heq⟩
      exact ⟨heq, Nat.pos_of_ne_zero hne, hle⟩
  | spi =>
    have hmod : a % 256 = a := Nat.mod_eq_of_lt (Nat.lt_succ_of_le ha)
    have hfour : 4 % n = 0 := by
      simp only [List.mem_cons, List.not_mem_nil, or_false] at hn
      rcases hn with rfl | rfl | rfl <;> rfl
    show n * count ≤ 4 ∧ 1 ≤ a ∧ a ≤ 11 ↔ 4 ≤ 4 ∧ 4 ≠ 0 ∧ 4 % n = 0 ∧
      ¬ (Config.spi = .spi ∧ (a % 256 < 1 ∨ a % 256 > 11)) ∧ wrongSize .spi (n * count) 4 = false
    rw [wrongSize_spi, hmod]
    constructor
    · rintro ⟨hle, hlow, hhigh⟩
      exact ⟨le_rfl, by omega, hfour, by omega, hle⟩
    · rintro ⟨-, -, -, hspi, hle⟩
      rw [and_iff_right rfl] at hspi
      exact ⟨hle, by omega, by omega⟩

/-- The two arguments in front of the data: both are addresses and give the
package, or the program exits. -/
theorem positionals_eq {k : ℕ} (hfirst : argv[k]? = some (some first))
    (hsecond : argv[k + 1]? = some (some second)) :
    (∃ a b, (a ≤ cfg.maxAddress ∧ ∀ v, Accepts first v ↔ v = a) ∧
      (b ≤ cfg.maxAddress ∧ ∀ v, Accepts second v ↔ v = b) ∧
      positionals cfg argv k = ⟨[.argv k, .argv (k + 1)], some (.start cfg a b)⟩) ∨
    (¬ IsAddress cfg first ∨ ¬ IsAddress cfg second) ∧ ∃ log, Event.exit ∈ log ∧
      positionals cfg argv k = ⟨log, none⟩ := by
  have hread : positionals cfg argv k =
      emit (.argv k) >>= fun _ => parseAddress cfg first >>= fun a =>
      emit (.argv (k + 1)) >>= fun _ => parseAddress cfg second >>=
        fun b => pure (.start cfg a b) := by
    simp only [positionals, readArgv_of_some hfirst, readArgv_of_some hsecond, mk_singleton_bind,
      lift_some_bind]
  rw [hread]
  rcases parseAddress_eq cfg first with ⟨a, ha, hamax, hafirst⟩ | ⟨hno, format, as, ha⟩
  · rcases parseAddress_eq cfg second with ⟨b, hb, hbmax, hbsecond⟩ | ⟨hno, format, as, hb⟩
    · rw [ha, hb]
      exact Or.inl ⟨a, b, ⟨hamax, hafirst⟩, ⟨hbmax, hbsecond⟩, rfl⟩
    · rw [ha, hb]
      exact Or.inr ⟨Or.inr hno, [.argv k, .argv (k + 1), .print (.text format as), .exit],
        by simp, rfl⟩
  · rw [ha]
    exact Or.inr ⟨Or.inl hno, [.argv k, .print (.text format as), .exit], by simp, rfl⟩

/-- What is left is refused at an argument in front of the data, or at one
of the data where they are read. -/
theorem refusesArguments_iff
    (hle : (first :: second :: data).length ≤ 2 + cfg.maximumEspiDataSize) :
    RefusesArguments cfg n (first :: second :: data) ↔
      ¬ IsAddress cfg first ∨ ¬ IsAddress cfg second ∨
        (∃ a b, Accepts first a ∧ Accepts second b ∧ Fits cfg n a b data.length) ∧
          ∃ w ∈ data, ¬ IsData n w := by
  constructor
  · rintro ⟨-, first', second', data', heq, h⟩
    simp only [List.cons.injEq] at heq
    obtain ⟨rfl, rfl, rfl⟩ := heq
    exact h
  · exact fun h => ⟨hle, first, second, data, rfl, h⟩

/-- And behind two addresses it is refused only at the data. -/
theorem refusesArguments_of_addresses {a b : ℕ} (hamax : a ≤ cfg.maxAddress)
    (ha : ∀ v, Accepts first v ↔ v = a) (hbmax : b ≤ cfg.maxAddress)
    (hb : ∀ v, Accepts second v ↔ v = b)
    (hle : (first :: second :: data).length ≤ 2 + cfg.maximumEspiDataSize) :
    RefusesArguments cfg n (first :: second :: data) ↔
      Fits cfg n a b data.length ∧ ∃ w ∈ data, ¬ IsData n w := by
  have hfirst : IsAddress cfg first := ⟨a, (ha a).2 rfl, hamax⟩
  have hsecond : IsAddress cfg second := ⟨b, (hb b).2 rfl, hbmax⟩
  rw [refusesArguments_iff hle, or_iff_right (not_not_intro hfirst),
    or_iff_right (not_not_intro hsecond)]
  refine and_congr_left fun _ => ⟨?_, fun h => ⟨a, b, (ha a).2 rfl, (hb b).2 rfl, h⟩⟩
  rintro ⟨a', b', ha', hb', h⟩
  rw [(ha a').1 ha', (hb b').1 hb'] at h
  exact h

/-- Behind the checks, the data are what is left to refuse. -/
theorem fills_iff (hn : n ∈ [1, 2, 4]) {a : ℕ} (ha : a ≤ cfg.maxAddress) (b : ℕ)
    (data : List (List UInt8)) (hsize : (Package.start cfg a b).datasize ≤ cfg.maximumEspiDataSize)
    (hzero : (Package.start cfg a b).datasize ≠ 0)
    (hdivides : (Package.start cfg a b).datasize % n = 0)
    (hspi : ¬ (cfg = .spi ∧ ((Package.start cfg a b).spi < 1 ∨ (Package.start cfg a b).spi > 11))) :
    (wrongSize cfg (n * data.length) (Package.start cfg a b).datasize = true ∨
        ∀ w ∈ data, IsData n w) ↔
      ¬ (Fits cfg n a b data.length ∧ ∃ w ∈ data, ¬ IsData n w) := by
  have hfits : Fits cfg n a b data.length ↔
      wrongSize cfg (n * data.length) (Package.start cfg a b).datasize = false := by
    rw [fits_iff hn data.length ha b, and_iff_right hsize, and_iff_right hzero,
      and_iff_right hdivides, and_iff_right hspi]
  rw [hfits, not_and_or, Bool.not_eq_false, not_exists]
  refine or_congr_right (forall_congr' fun w => ?_)
  rw [not_and, not_not]

/-- From the data on the program stays just where their number is wrong, or
they are all data. -/
theorem fillData_addOffset_exact (hn : o.dataBytes ∈ [1, 2, 4]) {k : ℕ} {data : List (List UInt8)}
    (hdata : argv.drop k = data.map some ++ [none]) (hlen : data.length ≤ cfg.maximumEspiDataSize)
    (p : Package cfg) (hsize : p.datasize ≤ cfg.maximumEspiDataSize) :
    Exact Stays
      (wrongSize cfg (o.dataBytes * data.length) p.datasize = true ∨
        ∀ w ∈ data, IsData o.dataBytes w) (fun _ => True)
      (do
        match ← fillData o data.length argv k p with
        | none => return none
        | some p =>
          match ← addOffset o p with
          | none => return none
          | some p => return some (o, p)) := by
  refine (fillData_exact hn hdata hlen p hsize).bind fun r _ => ?_
  rcases r with _ | q
  · exact exact_pure trivial trivial
  · refine (addOffset_exact q).bind fun r _ => ?_
    rcases r with _ | q
    · exact exact_pure trivial trivial
    · exact exact_pure trivial trivial

/-- **Behind the options**, with `left` for the words that are left, it
exits exactly where one that is parsed is refused. -/
theorem build_exact (hn : o.dataBytes ∈ [1, 2, 4]) {k : ℕ} {left : List (List UInt8)}
    (hleft : WordsAt true argv k left) :
    Exact Stays (¬ RefusesArguments cfg o.dataBytes left) (fun _ => True)
      (build cfg o left.length argv k) := by
  unfold build
  split
  · rename_i hargc
    refine exact_fail _ _ ?_ trivial
    rintro ⟨hle, first, second, data, rfl, -⟩
    simp only [List.length_cons] at hargc hle
    omega
  rename_i hargc
  rw [not_or, not_lt, not_lt] at hargc
  obtain ⟨first, second, data, rfl⟩ : ∃ first second data, left = first :: second :: data := by
    rcases left with _ | ⟨first, _ | ⟨second, data⟩⟩
    · simp at hargc
    · simp at hargc
    · exact ⟨first, second, data, rfl⟩
  have hle : (first :: second :: data).length ≤ 2 + cfg.maximumEspiDataSize := by omega
  rcases positionals_eq hleft.head hleft.tail.head with
    ⟨a, b, ⟨hamax, ha⟩, ⟨hbmax, hb⟩, heq⟩ | ⟨hno, log, hexit, heq⟩
  · rw [heq]
    refine exact_bind rfl (by simp [Meets, Stays]) ?_
    have hfits := fits_iff hn data.length hamax b
    have hfills := fills_iff hn hamax b data
    rw [refusesArguments_of_addresses hamax ha hbmax hb hle]
    -- each check that fails is a part of `Fits` that does
    generalize Package.start cfg a b = p at hfits hfills
    dsimp only
    split
    · rename_i hsize
      exact exact_fail _ _ (fun h => absurd (hfits.1 h.1).1 (not_le.2 hsize)) trivial
    rename_i hsize
    split
    · rename_i hzero
      exact exact_fail _ _ (fun h => (hfits.1 h.1).2.1 hzero) trivial
    rename_i hzero
    refine exact_bind (answer_emit _) (meets_emit.2 (by simp [Stays])) ?_
    split
    · rename_i hdivides
      exact exact_fail _ _ (fun h => hdivides (hfits.1 h.1).2.2.1) trivial
    rename_i hdivides
    split
    · rename_i hspi
      exact exact_fail _ _ (fun h => (hfits.1 h.1).2.2.2.1 hspi) trivial
    rename_i hspi
    have hcount : ((first :: second :: data).length : ℤ) - 2 = data.length := by
      simp only [List.length_cons]
      omega
    have hdatasize : (if cfg = .spi then { p with spi := p.spi - 1 } else p).datasize =
        p.datasize := by
      split <;> rfl
    rw [hcount, ← hfills (not_lt.1 hsize) hzero (not_not.1 hdivides) hspi]
    generalize (if cfg = .spi then { p with spi := p.spi - 1 } else p) = p' at hdatasize ⊢
    rw [← hdatasize]
    refine fillData_addOffset_exact hn hleft.tail.tail ?_ p' (by omega)
    simp only [List.length_cons] at hle
    omega
  · rw [heq]
    refine exact_bind_of_not_meets (fun h => h _ hexit rfl)
      fun h => h ((refusesArguments_iff hle).2 ?_)
    rcases hno with hno | hno
    · exact Or.inl hno
    · exact Or.inr (Or.inl hno)

/-! ## Behind the package -/

theorem readLoop_answer {m : ℕ} (block : Block m) {left i : ℕ} (hi : i + left ≤ m) (tmpData : ℕ) :
    (readLoop o block left i tmpData).answer = some () := by
  induction left generalizing i tmpData with
  | zero => rfl
  | succ left ih =>
    rw [readLoop, Block.load_of_lt (by omega), lift_some_bind, answer_bind, answer_emit,
      Option.bind_some]
    split
    · rw [answer_bind, printWord_answer, Option.bind_some]
      exact ih (by omega) _
    · exact ih (by omega) _

theorem printData_answer {p : Package cfg} {left i : ℕ} (hi : i + left ≤ cfg.maximumEspiDataSize) :
    (printData p left i).answer = some () := by
  induction left generalizing i with
  | zero => rfl
  | succ left ih =>
    rw [printData, Block.load_of_lt (by omega), lift_some_bind, answer_bind, answer_xfprintf,
      Option.bind_some]
    exact ih (by omega)

theorem verboseBefore_answer {p : Package cfg} (hsize : p.datasize ≤ cfg.maximumEspiDataSize) :
    (verboseBefore o p).answer = some () := by
  have hdata : (printData p p.datasize 0).answer = some () := printData_answer (by omega)
  unfold verboseBefore
  simp only [apply_ite answer, answer_bind, answer_xfprintf, hdata, Option.bind_some, answer_pure,
    ite_self]

theorem verboseAfter_answer {p : Package cfg} (hsize : p.datasize ≤ cfg.maximumEspiDataSize) :
    (verboseAfter o p).answer = some () := by
  unfold verboseAfter
  split
  · exact printData_answer (by omega)
  · rfl

/-- **A package that has been built is gone through to the end.** -/
theorem finish_answer {p : Package cfg} (hsize : p.datasize ≤ cfg.maximumEspiDataSize) :
    (finish o p).answer = some 0 := by
  obtain ⟨d, hd, -⟩ := swap_eq p.data hsize
  have hd' := swap_swap hsize hd
  unfold finish
  rw [hd, lift_some_bind]
  dsimp only
  rw [answer_bind, verboseBefore_answer (by exact hsize), Option.bind_some, answer_bind,
    verboseAfter_answer (by exact hsize), Option.bind_some, hd', lift_some_bind]
  split
  · rw [answer_bind, readLoop_answer _ (by omega), Option.bind_some]
    rfl
  · rfl

/-! ## What is printed -/

/-- An event that prints nothing. -/
def Unsaid (e : Event) : Prop := ∀ out, e ≠ .print out

/-- Where the answer is one of `good`, nothing has been printed. -/
def Silent {α : Type} (good : α → Prop) (x : Traced Event α) : Prop :=
  ∀ a, x.answer = some a → good a → Meets Unsaid x

section

variable {α β : Type} {Q : β → Prop} {x : Traced Event α} {f : α → Traced Event β}

theorem silent_of_meets (h : Meets Unsaid x) {good : α → Prop} : Silent good x := fun _ _ _ => h

theorem Silent.bind {R : α → Prop} (hx : Silent R x)
    (hR : ∀ a b, (f a).answer = some b → Q b → R a) (hf : ∀ a, x.answer = some a → Silent Q (f a)) :
    Silent Q (x >>= f) := by
  intro b hb hQ
  rw [answer_bind] at hb
  obtain ⟨a, ha, hb⟩ := Option.bind_eq_some_iff.1 hb
  exact (meets_bind_of_answer ha).2 ⟨hx a ha (hR a b hb hQ), hf a ha b hb hQ⟩

/-- Behind a computation that says nothing if it answers. -/
theorem Silent.then (hx : Silent (fun _ => True) x) (hf : ∀ a, Silent Q (f a)) :
    Silent Q (x >>= f) :=
  hx.bind (fun _ _ _ _ => trivial) fun a _ => hf a

/-- Behind one that may return without an answer the same is silent. -/
theorem Silent.thenSome {y : Traced Event (Option α)} {g : Option α → Traced Event (Option β)}
    (hy : Silent (· ≠ none) y) (hnone : g none = pure none)
    (hg : ∀ a, y.answer = some (some a) → Silent (· ≠ none) (g (some a))) :
    Silent (· ≠ none) (y >>= g) := by
  have hpure : Silent (· ≠ none) (pure none : Traced Event (Option β)) :=
    silent_of_meets (meets_pure _)
  refine hy.bind ?_ fun r hr => ?_
  · rintro r b hb hne rfl
    rw [hnone] at hb
    exact hne (Option.some.inj hb).symm
  · rcases r with _ | a
    · rw [hnone]
      exact hpure
    · exact hg a hr

theorem silent_emit {e : Event} (he : Unsaid e) :
    Silent (fun _ => True) (emit e : Traced Event Unit) :=
  silent_of_meets (meets_emit.2 he)

theorem silent_pure (a : α) {good : α → Prop} : Silent good (pure a : Traced Event α) :=
  silent_of_meets (meets_pure a)

theorem silent_lift (answer : Option α) : Silent (fun _ => True) (lift answer : Traced Event α) :=
  silent_of_meets (meets_lift answer)

theorem silent_fail (format : String) (as : List Arg) :
    Silent (· ≠ none) (fail format as : Traced Event (Option α)) := by
  rintro r hr hne
  exact absurd (Option.some.inj hr).symm hne

end

theorem silent_readArgv (k : ℕ) : Silent (fun _ => True) (readArgv argv k) :=
  (silent_emit (by simp [Unsaid])).then fun _ => silent_lift _

theorem silent_parseAddress (str : List UInt8) : Silent (fun _ => True) (parseAddress cfg str) := by
  rcases parseAddress_eq cfg str with ⟨v, heq, -⟩ | ⟨-, format, as, heq⟩
  · rw [heq]
    exact silent_pure v
  · rw [heq]
    rintro v ⟨⟩

theorem silent_parseData (hn : n ∈ [1, 2, 4]) (str : List UInt8) :
    Silent (fun _ => True) (parseData n str) := by
  rcases parseData_eq hn str with ⟨v, heq, -⟩ | ⟨-, format, as, heq⟩
  · rw [heq]
    exact silent_pure v
  · rw [heq]
    rintro v ⟨⟩

theorem silent_writeLoop (hn : n ∈ [1, 2, 4]) {m : ℕ} (offset k left i : ℕ) (d : Block m) :
    Silent (fun _ => True) (writeLoop n offset k argv left i d) := by
  induction left generalizing i d with
  | zero => exact silent_pure d
  | succ left ih =>
    refine (silent_emit (by simp [Unsaid])).then fun _ => (silent_readArgv _).then fun arg => ?_
    refine (silent_lift _).then fun str => (silent_parseData hn str).then fun v => ?_
    refine (silent_emit (by simp [Unsaid])).then fun _ =>
      (silent_emit (by simp [Unsaid])).then fun _ => ?_
    refine Silent.then ?_ fun d => ih _ d
    exact (silent_emit (by simp [Unsaid])).then fun _ => silent_lift _

theorem silent_fillData (hn : o.dataBytes ∈ [1, 2, 4]) (argc : ℤ) (k : ℕ) (p : Package cfg) :
    Silent (· ≠ none) (fillData o argc argv k p) := by
  unfold fillData
  split
  · exact silent_pure _
  · dsimp only
    split
    · exact silent_fail _ _
    · exact (silent_writeLoop hn _ _ _ _ _).then fun d => silent_pure _

theorem silent_addOffset (p : Package cfg) : Silent (· ≠ none) (addOffset o p) := by
  unfold addOffset
  refine (silent_emit (by simp [Unsaid])).then fun _ => ?_
  dsimp only
  split
  · refine (silent_emit (by simp [Unsaid])).then fun _ => ?_
    split
    · exact silent_fail _ _
    · exact silent_pure _
  · split
    · exact silent_fail _ _
    · exact silent_pure _

theorem silent_build (hn : o.dataBytes ∈ [1, 2, 4]) (argc : ℤ) (k : ℕ) :
    Silent (· ≠ none) (build cfg o argc argv k) := by
  have hpositionals : Silent (fun _ => True) (positionals cfg argv k) := by
    refine (silent_readArgv _).then fun _ => (silent_lift _).then fun first => ?_
    refine (silent_parseAddress first).then fun a => (silent_readArgv _).then fun _ => ?_
    refine (silent_lift _).then fun second =>
      (silent_parseAddress second).then fun b => silent_pure _
  unfold build
  split
  · exact silent_fail _ _
  refine hpositionals.then fun p => ?_
  split
  · exact silent_fail _ _
  split
  · exact silent_fail _ _
  refine (silent_emit (by simp [Unsaid])).then fun _ => ?_
  split
  · exact silent_fail _ _
  split
  · exact silent_fail _ _
  refine (silent_fillData hn _ _ _).thenSome rfl fun q _ => ?_
  exact (silent_addOffset q).thenSome rfl fun q' _ => silent_pure _

/-! ## The program -/

theorem wordsAt_of_suffix {terminated : Bool} {left : List (List UInt8)} (h : left <:+ words) :
    WordsAt terminated (vector terminated (w :: words)) (words.length + 1 - left.length) left := by
  obtain ⟨front, rfl⟩ := h
  have hk : (front ++ left).length + 1 - left.length = (w :: front).length := by
    simp only [List.length_append, List.length_cons]
    omega
  have hvector : vector terminated (w :: (front ++ left)) =
      (w :: front).map some ++ vector terminated left := by
    simp [vector]
  rw [WordsAt, hk, hvector, ← List.length_map (f := some), List.drop_left]

/-- `main_ebi_rw` up to the options is the loop over them. -/
theorem readOptions_ends (cfg : Config) (terminated : Bool) (w : List UInt8)
    (words : List (List UInt8)) :
    ∃ name x, readOptions cfg (vector terminated (w :: words)) = (emit (.argv 0) >>= fun _ => x) ∧
      Ends cfg name terminated (words.length + 1) .init (items words).1 (items words).2 x := by
  have hzero : (vector terminated (w :: words))[0]? = some (some w) := rfl
  refine ⟨_, _, ?_, parseOptions_ends cfg terminated w words (programName w) .init⟩
  simp only [readOptions, readArgv_of_some hzero, mk_singleton_bind, lift_some_bind]

theorem readOptions_valid {k : ℕ} (h : (readOptions cfg argv).answer = some (some (o, k))) :
    o.Valid cfg := by
  have hP : Quiet fun _ : Event => True := ⟨⟨fun _ => trivial⟩, trivial⟩
  exact (hP.readOptions fun _ => trivial).2 _ h o k rfl

theorem package_wellFormed {argc : ℤ} {q : Package cfg}
    (h : (package cfg argc argv).answer = some (some (o, q))) : WellFormed o q := by
  have hP : Quiet fun _ : Event => True := ⟨⟨fun _ => trivial⟩, trivial⟩
  exact ((hP.package (fun _ => trivial) (fun _ _ => trivial) (fun _ _ => trivial) argc
    fun _ _ _ _ _ _ _ _ => trivial).2 _ h o q rfl).1

theorem package_exact (cfg : Config) (w : List UInt8) (words : List (List UInt8)) :
    Exact Stays (¬ Rejects cfg words) (fun _ => True)
      (package cfg (w :: words).length (vector true (w :: words))) := by
  obtain ⟨name, x, hread, hends⟩ := readOptions_ends cfg true w words
  have hvalid : ∀ o k, x.answer = some (some (o, k)) → o.Valid cfg := by
    intro o k hx
    have hanswer : (readOptions cfg (vector true (w :: words))).answer = some (some (o, k)) := by
      rw [hread]
      exact hx
    exact readOptions_valid hanswer
  have hstays : Event.exit ∉ x.log → Meets Stays x := fun h e he heq => h (heq ▸ he)
  have hmeets : Meets Stays (emit (.argv 0) : Traced Event Unit) := meets_emit.2 (by simp [Stays])
  unfold package
  rw [hread]
  -- the loop exits, returns, or leaves with the options
  rcases hx : x.answer with _ | _ | ⟨o, k⟩
  · have hexit : Event.exit ∈ x.log := by
      by_contra hno
      have hsome := hends.answer_isSome_iff.2 hno
      simp [hx] at hsome
    refine exact_bind_of_not_meets (fun h => ?_) fun h => h (Or.inl (hends.exit_mem_iff.1 hexit))
    exact (meets_bind.1 h).2 () rfl _ hexit rfl
  · have hexit : Event.exit ∉ x.log := hends.answer_isSome_iff.1 (by simp [hx])
    have hanswer : (emit (.argv 0) >>= fun _ => x).answer = some none := hx
    refine exact_bind hanswer (meets_bind.2 ⟨hmeets, fun _ _ => hstays hexit⟩)
      (exact_pure ?_ trivial)
    rintro (hrefuses | ⟨hpass, left, hleft, -⟩)
    · exact hexit (hends.exit_mem_iff.2 hrefuses)
    · rw [hends.answer_of_rest hpass hleft] at hx
      cases hx
  · have hexit : Event.exit ∉ x.log := hends.answer_isSome_iff.1 (by simp [hx])
    have hanswer : (emit (.argv 0) >>= fun _ => x).answer = some (some (o, k)) := hx
    refine exact_bind hanswer (meets_bind.2 ⟨hmeets, fun _ _ => hstays hexit⟩) ?_
    show Exact Stays _ _ (build cfg o ((w :: words).length - (k : ℤ)) _ k)
    have hn := (hvalid o k hx).bytes
    obtain ⟨hpass, ho, hstop⟩ := hends.of_answer hx
    have hrefuses : ¬ Refuses cfg (items words).1 := fun h => hexit (hends.exit_mem_iff.2 h)
    rcases hstop with ⟨left, hleft, rfl⟩ | ⟨hruns, rfl⟩
    · have hsuffix := items_rest_suffix hleft
      have hargc : (((w :: words).length : ℤ) - ((words.length + 1 - left.length : ℕ) : ℤ)) =
          left.length := by
        have hle := hsuffix.length_le
        rw [List.length_cons]
        omega
      rw [hargc]
      refine (build_exact hn (wordsAt_of_suffix hsuffix)).congr (not_congr ?_)
      subst ho
      constructor
      · exact fun h => Or.inr ⟨hpass, left, hleft, h⟩
      · rintro (h | ⟨-, left', hleft', h⟩)
        · exact absurd h hrefuses
        · rw [hleft] at hleft'
          cases hleft'
          exact h
    · -- no word is left
      have hargc : (((w :: words).length : ℤ) - ((words.length + 1 : ℕ) : ℤ)) = 0 := by
        rw [List.length_cons]
        omega
      rw [hargc]
      refine exact_fail _ _ ?_ trivial
      rintro (h | ⟨-, left, hleft, -⟩)
      · exact hrefuses h
      · rw [hruns] at hleft
        cases hleft

theorem package_silent (cfg : Config) (w : List UInt8) (words : List (List UInt8)) (argc : ℤ) :
    Silent (· ≠ none) (package cfg argc (vector true (w :: words))) := by
  obtain ⟨name, x, hread, hends⟩ := readOptions_ends cfg true w words
  have hoptions : Silent (· ≠ none) (readOptions cfg (vector true (w :: words))) := by
    rw [hread]
    refine (silent_emit (by simp [Unsaid])).then fun _ => ?_
    intro r hr hne
    rcases r with _ | ⟨o, k⟩
    · exact absurd rfl hne
    · exact fun e he out heq => hends.not_print hr out (heq ▸ he)
  refine hoptions.thenSome rfl fun r hr => silent_build ?_ _ _
  exact (readOptions_valid hr).bytes

/-- **`main_ebi_rw` returns but for a string that is parsed and rejected**,
for every argument vector. Its own errors return; those of `parse_number`,
`parse_data` and `parse_address` leave by `exit`, so that it comes back
exactly where none of the strings it gets to parse is malformed (`Rejects`). -/
theorem returns_iff (cfg : Config) (w : List UInt8) (words : List (List UInt8)) :
    Returns cfg (w :: words) ↔ ¬ Rejects cfg words := by
  have hexact : Exact Stays (¬ Rejects cfg words) (· = 0)
      (mainEbiRw cfg (w :: words).length (vector true (w :: words))) := by
    have hpackage := package_exact cfg w words
    refine Exact.bind (R := fun r => ∀ o q, r = some (o, q) → q.datasize ≤ cfg.maximumEspiDataSize)
      ⟨hpackage.1, fun hgood => ?_⟩ fun r hr => ?_
    · obtain ⟨r, hr, -⟩ := hpackage.2 hgood
      refine ⟨r, hr, ?_⟩
      rintro o q rfl
      exact (package_wellFormed hr).size_le
    · rcases r with _ | ⟨o, q⟩
      · exact exact_pure trivial rfl
      · have hmeets : Meets Stays (finish o q) := prints_stays.finish (by simp [Stays])
        exact ⟨iff_of_true hmeets trivial, fun _ => ⟨0, finish_answer (hr o q rfl), rfl⟩⟩
  have hstays : Meets Stays (mainEbiRw cfg (w :: words).length (vector true (w :: words))) ↔
      Event.exit ∉ (mainEbiRw cfg (w :: words).length (vector true (w :: words))).log :=
    ⟨fun h hexit => h _ hexit rfl, fun h e he heq => h (heq ▸ he)⟩
  constructor
  · rintro ⟨hexit, -, -⟩
    exact hexact.1.1 (hstays.2 hexit)
  · intro hgood
    obtain ⟨v, hv, rfl⟩ := hexact.2 hgood
    refine ⟨hstays.1 (hexact.1.2 hgood), hv, ?_⟩
    rintro ⟨out, hout⟩
    obtain ⟨r, hr, -⟩ := (package_exact cfg w words).2 hgood
    rcases r with _ | r
    · exact hr
    · exact absurd rfl (package_silent cfg w words _ _ hr (by simp) _ hout out)

/-- **A malformed address stops the device**: `1z` is printed as an error,
and then `exit` is called. -/
theorem malformed_address_exits :
    Event.exit ∈ (mainEbiRw .spi 3 (vector true [ascii "ebi_rv", ascii "1z", ascii "2"])).log ∧
    ¬ Returns .spi [ascii "ebi_rv", ascii "1z", ascii "2"] := by
  have hexit : Event.exit ∈ (mainEbiRw .spi 3
      (vector true [ascii "ebi_rv", ascii "1z", ascii "2"])).log := by
    decide +kernel
  exact ⟨hexit, fun h => h.1 hexit⟩

end Ebi

end SlipBoard
