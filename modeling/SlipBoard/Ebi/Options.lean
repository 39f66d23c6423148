import SlipBoard.Ebi.Numbers
/-!
# Register access — the options

The words in front of the address, by the rules of `getopt`: `items`
reads them as flags and letters with a value, and tells where that ends.
An item passes, and leaves a change in the options, or `main_ebi_rw`
prints the help and returns, or it exits (`Handled`). The number of -n
and of -b is cut to a byte before it is looked at
(`options_takeExactly_iff`).
-/

namespace SlipBoard

namespace Ebi

open Numerals Traced

variable {cfg : Config} {name w arg str : List UInt8} {ws words rest : List (List UInt8)}
  {o o' : Options} {c : UInt8} {v : ℕ}

/-! ## -n and -b -/

/-- An option takes the numbers of `allowed` and no others: it goes on
with the number in its field, or prints the help and returns. -/
def TakesExactly (opt : UInt8) (allowed : List ℕ) (field : Options → ℕ) (arg : List UInt8) : Prop :=
  ∀ (cfg : Config) (name : List UInt8) (o : Options),
    ((∃ o', (handleOption cfg name o opt (some arg)).answer = some (some o')) ↔
      ∃ n ∈ allowed, atoi arg = (n : ℤ)) ∧
    (∀ o', (handleOption cfg name o opt (some arg)).answer = some (some o') →
      (field o' : ℤ) = atoi arg) ∧
    ((¬ ∃ n ∈ allowed, atoi arg = (n : ℤ)) →
      handleOption cfg name o opt (some arg) = ⟨[.print (.help name)], some none⟩)

theorem toUint8_eq_iff {n : ℕ} (hn : n < 256) :
    toUint8 (atoi arg) = n ↔ atoi arg % 256 = (n : ℤ) := by
  unfold toUint8
  omega

theorem toUint8_mem_iff {allowed : List ℕ} (hsmall : ∀ n ∈ allowed, n < 256) :
    toUint8 (atoi arg) ∈ allowed ↔ ∃ n ∈ allowed, atoi arg % 256 = (n : ℤ) := by
  constructor
  · intro h
    exact ⟨_, h, (toUint8_eq_iff (hsmall _ h)).1 rfl⟩
  · rintro ⟨n, hn, heq⟩
    rw [(toUint8_eq_iff (hsmall n hn)).2 heq]
    exact hn

/-- What an option does that goes through a byte. -/
theorem takesExactly_iff {opt : UInt8} {allowed : List ℕ} {field : Options → ℕ}
    (set : Options → ℕ → Options) (hsmall : ∀ n ∈ allowed, n < 256)
    (hopt : ∀ cfg name o, handleOption cfg name o opt (some arg) =
      byteOption name allowed arg (set o)) (hfield : ∀ o n, field (set o n) = n) :
    TakesExactly opt allowed field arg ↔
      (∃ n ∈ allowed, atoi arg = (n : ℤ)) ∨ ¬ ∃ n ∈ allowed, atoi arg % 256 = (n : ℤ) := by
  have hcut : ∀ n ∈ allowed, atoi arg = (n : ℤ) → toUint8 (atoi arg) = n := by
    intro n hn heq
    have hlt := hsmall n hn
    exact (toUint8_eq_iff hlt).2 (by omega)
  constructor
  · intro h
    obtain ⟨hiff, -, -⟩ := h .ebi [] .init
    by_cases hin : toUint8 (atoi arg) ∈ allowed
    · refine Or.inl (hiff.1 ⟨set .init (toUint8 (atoi arg)), ?_⟩)
      rw [hopt, byteOption, if_neg (not_not_intro hin)]
      rfl
    · exact Or.inr fun h => hin ((toUint8_mem_iff hsmall).2 h)
  · intro h cfg name o
    rw [hopt]
    by_cases hin : ∃ n ∈ allowed, atoi arg = (n : ℤ)
    · obtain ⟨n, hn, heq⟩ := hin
      have hv := hcut n hn heq
      have hgo : byteOption name allowed arg (set o) = pure (some (set o n)) := by
        rw [byteOption, hv]
        exact if_neg (not_not_intro hn)
      rw [hgo]
      refine ⟨iff_of_true ⟨_, rfl⟩ ⟨n, hn, heq⟩, ?_, fun hno => absurd ⟨n, hn, heq⟩ hno⟩
      intro o' ho'
      obtain rfl := Option.some.inj (Option.some.inj ho')
      rw [hfield, heq]
    · have hout : toUint8 (atoi arg) ∉ allowed := by
        rw [toUint8_mem_iff hsmall]
        exact h.resolve_left hin
      have hhelp : byteOption name allowed arg (set o) = ⟨[.print (.help name)], some none⟩ := by
        rw [byteOption]
        exact if_pos hout
      rw [hhelp]
      exact ⟨iff_of_false (by simp) hin, by simp, fun _ => rfl⟩

theorem handleOption_offset (cfg : Config) (name : List UInt8) (o : Options) (arg : List UInt8) :
    handleOption cfg name o 111 (some arg) =
      parseAddress cfg arg >>= fun v => pure (some { o with addressOffset := v }) := by
  rw [handleOption, if_pos rfl, lift_some_bind]

theorem handleOption_base (cfg : Config) (name : List UInt8) (o : Options) (arg : List UInt8) :
    handleOption cfg name o 98 (some arg) =
      byteOption name [2, 10, 16] arg fun v => { o with dataBase := v } := by
  have hne : (98 : UInt8) ≠ 111 := by decide
  rw [handleOption, if_neg hne, if_pos rfl, lift_some_bind]

theorem handleOption_bytes (cfg : Config) (name : List UInt8) (o : Options) (arg : List UInt8) :
    handleOption cfg name o 110 (some arg) =
      byteOption name [1, 2, 4] arg fun v => { o with dataBytes := v } := by
  have hne : (110 : UInt8) ≠ 111 := by decide
  have hne' : (110 : UInt8) ≠ 98 := by decide
  rw [handleOption, if_neg hne, if_neg hne', if_pos rfl, lift_some_bind]

/-- **The numbers -n and -b take** are those of the documentation but for
the ones that a byte makes of others: the test comes behind the assignment
to a `uint8_t`, so an argument is taken where its remainder by 256 is one of
the numbers. -/
theorem options_takeExactly_iff (arg : List UInt8) :
    (TakesExactly 110 [1, 2, 4] Options.dataBytes arg ↔
      (∃ n : ℕ, n ∈ [1, 2, 4] ∧ atoi arg = n) ∨ ¬ ∃ n : ℕ, n ∈ [1, 2, 4] ∧ atoi arg % 256 = n) ∧
    (TakesExactly 98 [2, 10, 16] Options.dataBase arg ↔
      (∃ n : ℕ, n ∈ [2, 10, 16] ∧ atoi arg = n) ∨
        ¬ ∃ n : ℕ, n ∈ [2, 10, 16] ∧ atoi arg % 256 = n) := by
  have hbytes : ∀ n ∈ [1, 2, 4], n < 256 := by decide
  have hbase : ∀ n ∈ [2, 10, 16], n < 256 := by decide
  constructor
  · exact takesExactly_iff (fun o n => { o with dataBytes := n }) hbytes
      (fun cfg name o => handleOption_bytes cfg name o arg) fun _ _ => rfl
  · exact takesExactly_iff (fun o n => { o with dataBase := n }) hbase
      (fun cfg name o => handleOption_base cfg name o arg) fun _ _ => rfl

/-- **257 bytes are taken for one**: the `uint8_t` is assigned first, and
the test sees what is left. -/
theorem bytes_257_taken : atoi (ascii "257") = 257 ∧
    (handleOption .spi [] .init 110 (some (ascii "257"))).answer = some (some .init) ∧
    ¬ TakesExactly 110 [1, 2, 4] Options.dataBytes (ascii "257") := by
  have hatoi : atoi (ascii "257") = 257 := by
    decide +kernel
  have hgo : (handleOption .spi [] .init 110 (some (ascii "257"))).answer = some (some .init) := by
    decide +kernel
  refine ⟨hatoi, hgo, fun h => ?_⟩
  have hfield := (h .spi [] .init).2.1 _ hgo
  rw [hatoi] at hfield
  simp [Options.init] at hfield

/-! ## The words in front of the address -/

/-- A letter of an option word: alone, or with its value. -/
inductive Item
  | flag (c : UInt8)
  | value (c : UInt8) (arg : List UInt8)
  deriving DecidableEq

/-- Where the items end: at a word that is none, or behind `--`; behind
the last word; or at a letter whose value would be the word behind the
last. -/
inductive Stop
  | rest (words : List (List UInt8))
  | runsOut
  | lacks (c : UInt8)
  deriving DecidableEq

/-- The letters that take a value: `o`, `b` and `n`. -/
def takesValue (c : UInt8) : Bool := c = 111 || c = 98 || c = 110

/-- A word of options: a dash, and a letter or a digit. -/
def isOption (w : List UInt8) : Bool := w.head? = some 45 && isalnum (w.getD 1 0)

/-- The items of the letters of a word, and the letter whose value is the
next word. -/
def lettersOf : List UInt8 → List Item × Option UInt8
  | [] => ([], none)
  | c :: cs =>
    if takesValue c then if cs = [] then ([], some c) else ([.value c cs], none)
    else (.flag c :: (lettersOf cs).1, (lettersOf cs).2)

/-- **The items in front of the address**, and where they end: an option
with its value, if it takes one, is one item. -/
def items : List (List UInt8) → List Item × Stop
  | [] => ([], .runsOut)
  | w :: ws =>
    if w = ascii "--" then ([], .rest ws)
    else if isOption w = false then ([], .rest (w :: ws))
    else match lettersOf (w.drop 1) with
      | (is, none) => (is ++ (items ws).1, (items ws).2)
      | (is, some c) =>
        match ws with
        | [] => (is, .lacks c)
        | arg :: ws => (is ++ .value c arg :: (items ws).1, (items ws).2)

/-- The items from within a word on: its letters, the value the last of them
may take, and the items of the words behind. -/
def itemsFrom (cs : List UInt8) (ws : List (List UInt8)) : List Item × Stop :=
  match lettersOf cs with
  | (is, none) => (is ++ (items ws).1, (items ws).2)
  | (is, some c) =>
    match ws with
    | [] => (is, .lacks c)
    | arg :: ws => (is ++ .value c arg :: (items ws).1, (items ws).2)

theorem isOption_iff : isOption w = true ↔ ¬ (w.head? ≠ some 45 ∨ ¬ isalnum (w.getD 1 0)) := by
  rw [isOption, Bool.and_eq_true, decide_eq_true_eq, not_or, not_not, not_not]

theorem items_option (hdash : w ≠ ascii "--") (hopt : isOption w = true) :
    items (w :: ws) = itemsFrom (w.drop 1) ws := by
  rw [items, if_neg hdash, if_neg (by simp [hopt])]
  rfl

theorem itemsFrom_nil (ws : List (List UInt8)) : itemsFrom [] ws = items ws := rfl

theorem itemsFrom_flag (hc : takesValue c = false) (cs : List UInt8) (ws : List (List UInt8)) :
    itemsFrom (c :: cs) ws = (.flag c :: (itemsFrom cs ws).1, (itemsFrom cs ws).2) := by
  unfold itemsFrom
  rw [lettersOf, if_neg (by simp [hc])]
  rcases lettersOf cs with ⟨is, _ | d⟩
  · rfl
  · cases ws <;> rfl

theorem itemsFrom_value (hc : takesValue c = true) {cs : List UInt8} (hcs : cs ≠ [])
    (ws : List (List UInt8)) :
    itemsFrom (c :: cs) ws = (.value c cs :: (items ws).1, (items ws).2) := by
  unfold itemsFrom
  rw [lettersOf, if_pos hc, if_neg hcs]
  rfl

theorem itemsFrom_next (hc : takesValue c = true) (arg : List UInt8) (ws : List (List UInt8)) :
    itemsFrom [c] (arg :: ws) = (.value c arg :: (items ws).1, (items ws).2) := by
  unfold itemsFrom
  rw [lettersOf, if_pos hc, if_pos rfl]
  rfl

theorem itemsFrom_lacks (hc : takesValue c = true) : itemsFrom [c] [] = ([], .lacks c) := by
  unfold itemsFrom
  rw [lettersOf, if_pos hc, if_pos rfl]

/-- The words that are left are the last ones. -/
theorem items_rest_suffix {left : List (List UInt8)} (h : (items words).2 = .rest left) :
    left <:+ words := by
  fun_induction items words with
  | case1 => cases h
  | case2 ws =>
    obtain rfl := Stop.rest.inj h
    exact List.suffix_cons _ _
  | case3 w ws =>
    obtain rfl := Stop.rest.inj h
    exact List.suffix_refl _
  | case4 w ws hdash hopt is hletters ih => exact (ih h).trans (List.suffix_cons _ _)
  | case5 => cases h
  | case6 w hdash hopt is c hletters arg ws ih =>
    exact (ih h).trans ((List.suffix_cons _ _).trans (List.suffix_cons _ _))

/-! ## What an item does -/

/-- An item behind which `main_ebi_rw` goes on: -s, -d, -o with an
address, and -b and -n with a number that is allowed once it is cut to a
byte. -/
def Passes (cfg : Config) : Item → Prop
  | .flag c => c = 115 ∨ c = 100
  | .value c arg =>
    if c = 111 then IsAddress cfg arg
    else if c = 98 then toUint8 (atoi arg) ∈ [2, 10, 16]
    else toUint8 (atoi arg) ∈ [1, 2, 4]

/-- An item that makes the program exit: an offset that is no address. The
other values are read by `atoi`, which rejects nothing. -/
def Exits (cfg : Config) (it : Item) : Prop := ∃ arg, it = .value 111 arg ∧ ¬ IsAddress cfg arg

/-- The options behind an item that passes. A base and a word size are cut
to eight bits. -/
def Options.add (o : Options) : Item → Options
  | .flag c => if c = 115 then { o with dataSigned := true } else { o with verbose := true }
  | .value c arg =>
    if c = 111 then { o with addressOffset := ((parseNumber arg).answer).getD 0 }
    else if c = 98 then { o with dataBase := toUint8 (atoi arg) }
    else { o with dataBytes := toUint8 (atoi arg) }

/-- What an item does: it passes, it exits, or the help is printed. -/
inductive Handled (cfg : Config) (name : List UInt8) (o : Options) (it : Item) :
    Traced Event (Option Options) → Prop
  | pass (hit : Passes cfg it) : Handled cfg name o it (pure (some (o.add it)))
  | exits (hit : Exits cfg it) (format : String) (args : List Arg) :
    Handled cfg name o it ⟨[.print (.text format args), .exit], none⟩
  | help (hpass : ¬ Passes cfg it) (hexits : ¬ Exits cfg it) :
    Handled cfg name o it ⟨[.print (.help name)], some none⟩

theorem takesValue_iff : takesValue c = true ↔ c = 111 ∨ c = 98 ∨ c = 110 := by
  simp [takesValue, or_assoc]

theorem not_exits_flag : ¬ Exits cfg (.flag c) := by
  rintro ⟨arg, heq, -⟩
  cases heq

theorem not_exits_value (hc : c ≠ 111) : ¬ Exits cfg (.value c arg) := by
  rintro ⟨arg', heq, -⟩
  exact hc (Item.value.inj heq).1

theorem byteOption_handled {allowed : List ℕ} (set : ℕ → Options) {it : Item}
    (hpass : Passes cfg it ↔ toUint8 (atoi arg) ∈ allowed) (hexits : ¬ Exits cfg it)
    (hadd : set (toUint8 (atoi arg)) = o.add it) :
    Handled cfg name o it (byteOption name allowed arg set) := by
  unfold byteOption
  by_cases hin : toUint8 (atoi arg) ∈ allowed
  · dsimp only
    rw [if_neg (not_not_intro hin), hadd]
    exact .pass (hpass.2 hin)
  · exact (if_pos hin : ite _ _ _ = _) ▸ .help (fun h => hin (hpass.1 h)) hexits

theorem handleOption_flag (hc : takesValue c = false) (optarg : Option (List UInt8)) :
    Handled cfg name o (.flag c) (handleOption cfg name o c optarg) := by
  have hno : ¬ (c = 111 ∨ c = 98 ∨ c = 110) := by
    rw [← takesValue_iff, hc]
    exact Bool.false_ne_true
  rw [not_or, not_or] at hno
  unfold handleOption
  rw [if_neg hno.1, if_neg hno.2.1, if_neg hno.2.2]
  by_cases hs : c = 115
  · subst hs
    exact .pass (Or.inl rfl)
  · rw [if_neg hs]
    by_cases hd : c = 100
    · subst hd
      exact .pass (Or.inr rfl)
    · rw [if_neg hd]
      exact .help (fun h => h.elim hs hd) not_exits_flag

theorem handleOption_value (hc : takesValue c = true) :
    Handled cfg name o (.value c arg) (handleOption cfg name o c (some arg)) := by
  rcases takesValue_iff.1 hc with rfl | rfl | rfl
  · rw [handleOption_offset]
    rcases parseAddress_eq cfg arg with ⟨v, heq, hle, hiff⟩ | ⟨hno, format, args, heq⟩
    · have hadd : o.add (.value 111 arg) = { o with addressOffset := v } := by
        rw [Options.add, if_pos rfl, parseNumber_answer_iff.2 ((hiff v).2 rfl), Option.getD_some]
      rw [heq]
      show Handled cfg name o _ (pure (some { o with addressOffset := v }))
      rw [← hadd]
      exact .pass ⟨v, (hiff v).2 rfl, hle⟩
    · rw [heq]
      exact .exits ⟨arg, rfl, hno⟩ format args
  · have hne : (98 : UInt8) ≠ 111 := by decide
    rw [handleOption_base]
    exact byteOption_handled (fun v => { o with dataBase := v }) Iff.rfl (not_exits_value hne) rfl
  · have hne : (110 : UInt8) ≠ 111 := by decide
    rw [handleOption_bytes]
    exact byteOption_handled (fun v => { o with dataBytes := v }) Iff.rfl (not_exits_value hne) rfl

end Ebi

end SlipBoard
