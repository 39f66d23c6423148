import SlipBoard.Microrl.Execute
import SlipBoard.Microrl.Model.Accesses
/-!
# Line editor — memory safety

Without TAB every byte is answered and leaves the editor in range, so
nothing is read or written outside an array (`editor_in_range`).

TAB is told by its log. The traced functions compute what those of
`Model/Editor.lean` do (`microrlGetCompliteT_answer`). Their reads of
the line stay in front of the cursor, but for the byte in front of it
and the string of the last token, and their accesses to `tkn_arr` are
right where `split` has answered a count. So a TAB is in bounds exactly
where these three are (`tab_inBounds_iff`).
-/

namespace SlipBoard

namespace Microrl

open Transition Traced

variable {s s' : MicrorlT} {held : List (List UInt8)}

/-! ## Without TAB -/

/-- The editor after `microrl_init`, as the user has configured it: with or
without its callbacks, and with or without echo. -/
def begun (commands : Option (List (List UInt8))) (execute echo : Bool) : MicrorlT :=
  { MicrorlT.microrlInit with
    execute := execute
    getCompletion := commands
    terminalHasEcho := echo }

theorem sane_begun (commands : Option (List (List UInt8))) (execute echo : Bool) :
    Sane AnyByte (begun commands execute echo) [] :=
  (sane_microrlInit admits_anyByte).with_settings _ (show 4 < 10000 by omega) echo execute commands

/-- **The editor stays in range.** After any bytes without a TAB the
cursor is in the line, the line in the array in front of its last cell,
and any byte that is no TAB is answered: every access it makes is inside
its array. -/
theorem editor_in_range (commands : Option (List (List UInt8))) (execute echo : Bool)
    (bs : List UInt8) (htab : 9 ∉ bs) :
    ∃ s, run MicrorlT.microrlInsertChar (begun commands execute echo) bs = some s ∧
      s.cursor ≤ s.cmdlen ∧ s.cmdlen ≤ commandLineLen - 1 ∧
      ∀ ch, ch ≠ 9 → (s.microrlInsertChar ch).isSome = true := by
  have hstep : ∀ s ch, (∃ held, Sane AnyByte s held) → ch ≠ 9 →
      ∃ t, s.microrlInsertChar ch = some t ∧ ∃ held, Sane AnyByte t held := by
    rintro s ch ⟨held, hs⟩ hch
    obtain ⟨t, held', hkey, ht, -⟩ := microrlInsertChar_sane admits_anyByte hs fun _ => hch
    exact ⟨t, hkey, held', ht⟩
  obtain ⟨s, hrun, held, hs⟩ := run_of_invariant hstep ⟨[], sane_begun commands execute echo⟩
    (along_of_forall (fun ch hch => ne_of_mem_of_not_mem hch htab) _)
  refine ⟨s, hrun, hs.cursor_le, hs.cmdlen_le, fun ch hch => ?_⟩
  obtain ⟨t, hkey, -⟩ := hstep s ch ⟨held, hs⟩ hch
  rw [hkey]
  rfl

/-- At a full line: a hundred characters, and then ^A and backspace. -/
theorem editor_in_range_full :
    ∃ s, run MicrorlT.microrlInsertChar (begun none false false)
        (List.replicate 100 120 ++ [1, 127]) = some s ∧
      s.cursor ≤ s.cmdlen ∧ s.cmdlen ≤ commandLineLen - 1 ∧
      ∀ ch, ch ≠ 9 → (s.microrlInsertChar ch).isSome = true :=
  editor_in_range none false false _ (by decide)

/-! ## The traced functions compute the same -/

theorem loadT_nat (ind : ℕ) : (s.loadT ind).answer = s.cmdline.load ind := rfl

theorem scanT_answer (p : UInt8 → Bool) (limit fuel ind : ℕ) :
    (s.scanT p limit fuel ind).answer = scan p s.cmdline limit fuel ind := by
  induction fuel generalizing ind with
  | zero => rfl
  | succ fuel ih =>
    unfold MicrorlT.scanT scan
    rw [answer_bind, loadT_nat]
    refine congrArg _ (funext fun c => ?_)
    split
    · exact ih (ind + 1)
    · rfl

/-- The status and the pointers that stand for an answer of `split`. -/
def pointers (r : Option ℕ × List ℕ) : ℤ × List Tkn :=
  (match r.1 with
    | none => -1
    | some n => n, r.2.map .at)

theorem pointers_of_few {starts : List ℕ} (h : starts.length < commandTokenNmb) :
    pointers (answer starts) = ((starts.length : ℤ), starts.map .at) := by
  rw [answer, if_pos h]
  rfl

theorem pointers_of_many {starts : List ℕ} (h : ¬ starts.length < commandTokenNmb) :
    pointers (answer starts) = (-1, (starts.take commandTokenNmb).map .at) := by
  rw [answer, if_neg h]
  rfl

theorem storeTkn_answer {tkn : List Tkn} (h : tkn.length < commandTokenNmb) (p : Tkn) :
    (storeTkn tkn tkn.length p).answer = some (tkn ++ [p]) :=
  if_pos ⟨rfl, by exact_mod_cast h⟩

theorem splitFromT_answer (limit fuel ind : ℕ) {tkn : List ℕ}
    (hfuel : tkn.length + fuel = commandTokenNmb) :
    (s.splitFromT limit fuel ind (tkn.map .at)).answer =
      (splitFrom s.cmdline limit fuel ind tkn).map pointers := by
  induction fuel generalizing ind tkn with
  | zero => rfl
  | succ fuel ih =>
    have hlt : (tkn.map Tkn.at).length < commandTokenNmb := by
      rw [List.length_map]
      omega
    unfold MicrorlT.splitFromT splitFrom
    rw [answer_bind, scanT_answer, Option.bind_eq_bind, Option.map_bind]
    refine congrArg _ (funext fun e => ?_)
    by_cases he : e < limit
    · simp only [he, not_true_eq_false, if_false, Function.comp_apply]
      rw [answer_bind, storeTkn_answer hlt, Option.bind_some]
      have hmap : tkn.map Tkn.at ++ [.at e] = (tkn ++ [e]).map Tkn.at := by simp
      rw [hmap, List.length_map]
      by_cases hten : (tkn ++ [e]).length ≥ commandTokenNmb
      · rw [if_pos hten, if_pos hten]
        rfl
      · rw [if_neg hten, if_neg hten, answer_bind, scanT_answer, Option.map_bind]
        refine congrArg _ (funext fun e₂ => ?_)
        by_cases he₂ : e₂ < limit
        · simp only [he₂, not_true_eq_false, if_false, Function.comp_apply]
          exact ih e₂ (by simp; omega)
        · simp only [he₂, not_false_eq_true, if_true, Function.comp_apply]
          rfl
    · simp only [he, not_false_eq_true, if_true, Function.comp_apply, List.length_map]
      rfl

theorem splitT_answer (limit : ℕ) :
    (s.splitT limit).answer = (split s.cmdline limit).map pointers :=
  @splitFromT_answer s limit commandTokenNmb 0 [] rfl

theorem microrlInsertTextT_answer (s : MicrorlT) (text : List UInt8) :
    (s.microrlInsertTextT text).answer = s.microrlInsertText text := by
  unfold MicrorlT.microrlInsertTextT MicrorlT.microrlInsertText
  by_cases hroom : s.cmdlen + text.length < commandLineLen
  · rw [if_pos hroom]
    simp only [hroom, if_true, answer_bind, answer_lift, Option.bind_eq_bind, MicrorlT.readT]
    by_cases hcur : s.cursor ≤ s.cmdlen
    · -- what is read back lies inside, since the text does
      have hback : ∀ b : Block commandLineLen,
          b.read s.cursor text.length = some (b.slice s.cursor text.length) :=
        fun b => Block.read_of_le (by omega)
      simp only [hback, Option.bind_some]
      rfl
    · have hdiff : diff s.cmdlen s.cursor = none := if_neg hcur
      simp [hdiff]
  · rw [if_neg hroom]
    simp only [hroom, if_false]
    rfl

theorem terminalPrintLineT_answer (s : MicrorlT) (pos cursor : ℕ) :
    (s.terminalPrintLineT pos cursor).answer = s.terminalPrintLine pos cursor := by
  unfold MicrorlT.terminalPrintLineT MicrorlT.terminalPrintLine
  simp only [answer_bind, answer_lift, answer_pure, Option.bind_eq_bind, MicrorlT.readT]
  rfl

/-- The string that a token stands for: the one at its index in the line, or
the empty one. -/
def MicrorlT.text (s : MicrorlT) : Tkn → List UInt8
  | .at i => s.cmdline.cstr i
  | .empty => []

theorem strT_answer (hs : Sane AnyByte s held) (p : Tkn) (hp : ∀ i, p = .at i → i ≤ 100) :
    (s.strT p).answer = some (s.text p) := by
  cases p with
  | empty => rfl
  | «at» i =>
    exact Block.str_of_byte_eq_zero (hp i rfl) (by rw [commandLineLen]; omega) hs.guard

variable {tkn : List Tkn} {p : Tkn} {keyworld found : List (List UInt8)}

theorem loadTkn_last (tkn : List Tkn) (p : Tkn) :
    (loadTkn (tkn ++ [p]) ((tkn ++ [p]).length - 1)).answer = some p := by
  have hlen : ((tkn ++ [p]).length : ℤ) - 1 = tkn.length := by simp
  rw [hlen]
  simp [loadTkn]

theorem matchT_answer (hp : (s.strT p).answer = some (s.text p)) (keyworld : List (List UInt8)) :
    (s.matchT p keyworld).answer = some (keyworld.filter fun name => (s.text p).isPrefixOf name) := by
  induction keyworld with
  | nil => rfl
  | cons name names ih =>
    simp only [MicrorlT.matchT, answer_bind, hp, ih, Option.bind_some, answer_pure, List.filter_cons]

/-! ## What they access -/

theorem meets_loadT {ind : ℕ} (h : ind ≤ s.cmdlen) : (s.loadT ind).Meets Access.InBounds := by
  intro e he
  obtain rfl := List.mem_singleton.1 he
  exact ⟨Int.natCast_nonneg ind, by exact_mod_cast h⟩

theorem meets_readT {cmdlen lo len : ℕ} (h : lo + len ≤ cmdlen) :
    (s.readT cmdlen lo len).Meets Access.InBounds := by
  intro e he
  obtain ⟨k, hk, rfl⟩ := List.mem_map.1 he
  have hlt := List.mem_range.1 hk
  exact ⟨Int.natCast_nonneg _, by exact_mod_cast (show lo + k ≤ cmdlen by omega)⟩

/-- A token is read up to the NUL behind it. -/
theorem meets_strT_at {i : ℕ} : (s.strT (.at i)).Meets Access.InBounds ↔
    i + (s.cmdline.cstr i).length ≤ s.cmdlen := by
  constructor
  · intro h
    have hlast := h (.line (i + (s.cmdline.cstr i).length : ℕ) s.cmdlen)
      (List.mem_map.2 ⟨_, List.mem_range.2 (Nat.lt_succ_self _), rfl⟩)
    exact_mod_cast hlast.2
  · intro h e he
    obtain ⟨k, hk, rfl⟩ := List.mem_map.1 he
    have hlt := List.mem_range.1 hk
    exact ⟨Int.natCast_nonneg _, by exact_mod_cast (show i + k ≤ s.cmdlen by omega)⟩

theorem meets_storeTkn {i : ℤ} (p : Tkn) :
    (storeTkn tkn i p).Meets Access.InBounds ↔ 0 ≤ i ∧ i < commandTokenNmb := by
  simp [Meets, storeTkn, Access.InBounds]

theorem meets_loadTkn {i : ℤ} : (loadTkn tkn i).Meets Access.InBounds ↔
    0 ≤ i ∧ i < commandTokenNmb ∧ i < tkn.length := by
  simp [Meets, loadTkn, Access.InBounds]

theorem meets_scanT (q : UInt8 → Bool) {limit fuel ind : ℕ} (hlimit : limit ≤ s.cmdlen)
    (hind : ind ≤ limit) : (s.scanT q limit fuel ind).Meets Access.InBounds := by
  induction fuel generalizing ind with
  | zero => exact meets_lift none
  | succ fuel ih =>
    unfold MicrorlT.scanT
    refine meets_bind.2 ⟨meets_loadT (hind.trans hlimit), fun c _ => ?_⟩
    split
    · exact ih ‹_ ∧ ind < limit›.2
    · exact meets_pure _

theorem meets_splitFromT {limit fuel ind : ℕ} (hlimit : limit ≤ s.cmdlen) (hle : limit ≤ 100)
    (hind : ind ≤ limit) (hfuel : tkn.length + fuel = commandTokenNmb) :
    (s.splitFromT limit fuel ind tkn).Meets Access.InBounds := by
  induction fuel generalizing ind tkn with
  | zero => exact meets_lift none
  | succ fuel ih =>
    have hscan : ∀ (q : UInt8 → Bool) {i e : ℕ}, i ≤ limit →
        (s.scanT q limit (commandLineLen + 1) i).answer = some e → e ≤ limit := by
      intro q i e hi h
      obtain ⟨e', he', ⟨-, hle'⟩, -⟩ := scan_eq q s.cmdline hle hi
        (show limit - i < commandLineLen + 1 by rw [commandLineLen]; omega)
      rw [scanT_answer, he'] at h
      exact Option.some.inj h ▸ hle'
    have hlt : tkn.length < commandTokenNmb := by omega
    unfold MicrorlT.splitFromT
    refine meets_bind.2 ⟨meets_scanT _ hlimit hind, fun e he => ?_⟩
    have hel := hscan _ hind he
    split
    · exact meets_pure _
    refine (meets_bind_of_answer (storeTkn_answer hlt _)).2
      ⟨(meets_storeTkn _).2 ⟨Int.natCast_nonneg _, by exact_mod_cast hlt⟩, ?_⟩
    split
    · exact meets_pure _
    refine meets_bind.2 ⟨meets_scanT _ hlimit hel, fun e₂ he₂ => ?_⟩
    have hel₂ := hscan _ hel he₂
    split
    · exact meets_pure _
    · exact ih hel₂ (by rw [List.length_append, List.length_singleton]; omega)

theorem meets_microrlInsertTextT (s : MicrorlT) (text : List UInt8) :
    (s.microrlInsertTextT text).Meets Access.InBounds := by
  unfold MicrorlT.microrlInsertTextT
  split
  · refine meets_bind.2 ⟨meets_lift _, fun len hlen => ?_⟩
    have hdiff : s.cursor + len = s.cmdlen := by
      simp only [answer_lift, diff, Option.ite_none_right_eq_some, Option.some.injEq] at hlen
      omega
    refine meets_bind.2 ⟨meets_readT (by omega), fun tail _ => ?_⟩
    refine meets_bind.2 ⟨meets_lift _, fun b _ => meets_bind.2 ⟨meets_lift _, fun c _ => ?_⟩⟩
    refine meets_bind.2 ⟨meets_readT (by omega), fun _ _ => ?_⟩
    exact meets_bind.2 ⟨meets_lift _, fun _ _ => meets_pure _⟩
  · exact meets_pure _

theorem meets_terminalPrintLineT (s : MicrorlT) {pos : ℕ} (hpos : pos ≤ s.cmdlen) (cursor : ℕ) :
    (s.terminalPrintLineT pos cursor).Meets Access.InBounds := by
  unfold MicrorlT.terminalPrintLineT
  refine meets_bind.2 ⟨meets_readT (show pos + (s.cmdlen - pos) ≤ s.cmdlen by omega), fun _ _ => ?_⟩
  exact meets_bind.2 ⟨meets_lift _, fun _ _ => meets_pure _⟩

/-! ## Behind the tokens -/

theorem meets_matchT (hp : (s.strT p).answer = some (s.text p)) :
    (s.matchT p keyworld).Meets Access.InBounds ↔
      keyworld = [] ∨ (s.strT p).Meets Access.InBounds := by
  induction keyworld with
  | nil => exact iff_of_true (meets_pure _) (Or.inl rfl)
  | cons name names ih =>
    have hrest := matchT_answer hp names
    simp only [MicrorlT.matchT, meets_bind_of_answer hp, meets_bind_of_answer hrest, meets_pure,
      and_true, ih, List.cons_ne_nil, false_or]
    exact ⟨fun h => h.1, fun h => ⟨h, Or.inr h⟩⟩

/-- Where a token is the last, the names with it in front are found. -/
theorem completT_of_last (keyworld : List (List UInt8)) (hp : (s.strT p).answer = some (s.text p))
    (hlen : (tkn ++ [p]).length ≤ commandTokenNmb) :
    (s.completT keyworld (tkn ++ [p]).length (tkn ++ [p])).answer =
        some (keyworld.filter fun name => (s.text p).isPrefixOf name) ∧
      ((s.completT keyworld (tkn ++ [p]).length (tkn ++ [p])).Meets Access.InBounds ↔
        keyworld = [] ∨ (s.strT p).Meets Access.InBounds) := by
  have hpos : ((tkn ++ [p]).length : ℤ) ≥ 1 := by simp
  have hload := loadTkn_last tkn p
  unfold MicrorlT.completT
  rw [if_pos hpos]
  constructor
  · rw [answer_bind, hload, Option.bind_some]
    exact matchT_answer hp keyworld
  · rw [meets_bind_of_answer hload, meets_matchT hp, meets_loadTkn]
    exact and_iff_right ⟨by omega, by omega, by omega⟩

theorem lastLenT_of_last (hp : (s.strT p).answer = some (s.text p))
    (hlen : (tkn ++ [p]).length ≤ commandTokenNmb) :
    (s.lastLenT (tkn ++ [p]).length (tkn ++ [p])).answer = some (s.text p).length ∧
      ((s.strT p).Meets Access.InBounds →
        (s.lastLenT (tkn ++ [p]).length (tkn ++ [p])).Meets Access.InBounds) := by
  have hpos : 0 < (tkn ++ [p]).length := by simp
  have hload := loadTkn_last tkn p
  unfold MicrorlT.lastLenT
  constructor
  · simp only [answer_bind, hload, hp, Option.bind_some, answer_pure]
  · intro hstr
    rw [meets_bind_of_answer hload, meets_bind_of_answer hp]
    exact ⟨meets_loadTkn.2 ⟨by omega, by omega, by omega⟩, hstr, meets_pure _⟩

theorem insertRestT_of_last (hp : (s.strT p).answer = some (s.text p))
    (hlen : (tkn ++ [p]).length ≤ commandTokenNmb) {argv : List (List UInt8)}
    (hargv : argv.getLast? = some (s.text p)) (name : List UInt8) (len : ℕ) (only : Bool) :
    (s.insertRestT (tkn ++ [p]).length (tkn ++ [p]) name len only).answer =
        s.insertRest argv name len only ∧
      ((s.strT p).Meets Access.InBounds →
        (s.insertRestT (tkn ++ [p]).length (tkn ++ [p]) name len only).Meets Access.InBounds) := by
  obtain ⟨hanswer, hmeets⟩ := lastLenT_of_last hp hlen
  unfold MicrorlT.insertRestT MicrorlT.insertRest
  by_cases hzero : len = 0
  · rw [if_pos hzero, if_pos hzero]
    exact ⟨rfl, fun _ => meets_pure _⟩
  rw [if_neg hzero, if_neg hzero]
  constructor
  · simp only [answer_bind, hanswer, hargv, Option.bind_some, Option.bind_eq_bind, answer_lift,
      microrlInsertTextT_answer]
    refine congrArg _ (funext fun n => congrArg _ (funext fun r => ?_))
    cases only with
    | false => rfl
    | true =>
      simp only [if_true, answer_bind, microrlInsertTextT_answer]
      rfl
  · intro hstr
    refine (meets_bind_of_answer hanswer).2 ⟨hmeets hstr, ?_⟩
    refine (meets_bind_of_answer hanswer).2 ⟨hmeets hstr, ?_⟩
    refine meets_bind.2 ⟨meets_lift _, fun n _ => meets_bind.2 ⟨meets_microrlInsertTextT _ _, ?_⟩⟩
    rintro ⟨t, done⟩ -
    cases only with
    | false => exact meets_pure _
    | true => exact meets_bind.2 ⟨meets_microrlInsertTextT _ _, fun _ _ => meets_pure _⟩

/-- What is done with the names that are found. -/
theorem foundT_of_last (hp : (s.strT p).answer = some (s.text p))
    (hlen : (tkn ++ [p]).length ≤ commandTokenNmb) (found : List (List UInt8))
    (hstr : found ≠ [] → (s.strT p).Meets Access.InBounds) :
    (s.foundT (tkn ++ [p]).length (tkn ++ [p]) found).Meets Access.InBounds := by
  cases found with
  | nil => exact meets_pure _
  | cons name names =>
    have hstr := hstr (List.cons_ne_nil _ _)
    have hprint : ∀ t : MicrorlT, t = s ∨ t = s.printNames (name :: names) →
        (t.insertRestT (tkn ++ [p]).length (tkn ++ [p]) name
          (if names.isEmpty then name.length else commonLen (name :: names))
          names.isEmpty).Meets Access.InBounds := by
      rintro t (rfl | rfl)
      · exact (insertRestT_of_last hp hlen (List.getLast?_singleton) _ _ _).2 hstr
      · exact (insertRestT_of_last (s := s.printNames (name :: names)) hp hlen
          (List.getLast?_singleton) _ _ _).2 hstr
    refine meets_bind.2 ⟨hprint _ (by split <;> simp), fun t _ => meets_bind.2 ⟨meets_lift _, ?_⟩⟩
    exact fun u _ => meets_terminalPrintLineT u (Nat.zero_le _) _

/-! ## The tokens -/

theorem loadT_last (hs : Sane AnyByte s held) (hpos : 0 < s.cursor) :
    (s.loadT ((s.cursor : ℤ) - 1)).answer = some (s.cmdline.byte (s.cursor - 1)) ∧
      (s.loadT ((s.cursor : ℤ) - 1)).Meets Access.InBounds := by
  have hcur := hs.cursor_le
  have hle := hs.cmdlen_le
  rw [show (s.cursor : ℤ) - 1 = (s.cursor - 1 : ℕ) by omega]
  exact ⟨Block.load_of_lt (by rw [commandLineLen]; omega), meets_loadT (by omega)⟩

theorem splitT_eq (hs : Sane AnyByte s held) :
    (s.splitT s.cursor).answer = some (pointers (answer (s.cmdline.starts s.cursor))) ∧
      (s.splitT s.cursor).Meets Access.InBounds := by
  have hle := hs.cursor_le.trans hs.cmdlen_le
  constructor
  · rw [splitT_answer, split_eq hle]
    rfl
  · exact meets_splitFromT hs.cursor_le hle (Nat.zero_le _) rfl

/-- The string of the last token ends in the line, or right behind it. -/
def Terminated (s : MicrorlT) : Prop :=
  ∃ k, k ≤ s.cmdlen ∧ s.cursor ≤ k ∧ s.cmdline.byte k = 0

instance (s : MicrorlT) : Decidable (Terminated s) :=
  inferInstanceAs (Decidable (∃ k, k ≤ s.cmdlen ∧ s.cursor ≤ k ∧ s.cmdline.byte k = 0))

/-- **With fewer than ten words** in front of the cursor there is a last
token, a string of the line behind a character, and the empty one behind
a zero. -/
theorem tokens_of_words (hs : Sane AnyByte s held) (hpos : 0 < s.cursor)
    (hwords : (s.cmdline.starts s.cursor).length < commandTokenNmb) :
    ∃ (init : List Tkn) (p : Tkn), (init ++ [p]).length ≤ commandTokenNmb ∧
      (s.lastTknT (s.cmdline.starts s.cursor).length
          ((s.cmdline.starts s.cursor).map .at)).answer =
        some (((init ++ [p]).length : ℤ), init ++ [p]) ∧
      (s.lastTknT (s.cmdline.starts s.cursor).length
        ((s.cmdline.starts s.cursor).map .at)).Meets Access.InBounds ∧
      s.completArgv = some ((init ++ [p]).map s.text) ∧ (s.strT p).answer = some (s.text p) ∧
      ((s.strT p).Meets Access.InBounds ↔
        s.cmdline.byte (s.cursor - 1) = 0 ∨ Terminated s) := by
  have hcur := hs.cursor_le
  have hle := hs.cmdlen_le
  obtain ⟨hload, hmeets⟩ := loadT_last hs hpos
  have hargv := completArgv_of_words hs hpos hwords
  by_cases hlast : s.cmdline.byte (s.cursor - 1) = 0
  · -- the empty token goes behind those of `split`
    have hlen : ((s.cmdline.starts s.cursor).map Tkn.at).length < commandTokenNmb := by
      rwa [List.length_map]
    have hstore := storeTkn_answer hlen .empty
    rw [List.length_map] at hstore
    refine ⟨(s.cmdline.starts s.cursor).map .at, .empty, by simp; omega, ?_, ?_, ?_, rfl, ?_⟩
    · simp only [MicrorlT.lastTknT, answer_bind, hload, Option.bind_some, hlast, if_true, hstore,
        answer_pure]
      simp
    · unfold MicrorlT.lastTknT
      rw [meets_bind_of_answer hload, if_pos hlast, meets_bind_of_answer hstore, meets_storeTkn]
      exact ⟨hmeets, ⟨Int.natCast_nonneg _, by exact_mod_cast hwords⟩, meets_pure _⟩
    · rw [hargv, if_pos hlast, List.map_append, List.map_map]
      rfl
    · exact iff_of_true (meets_pure _) (Or.inl hlast)
  · obtain ⟨j, hj, hst, hrun⟩ := Block.exists_start hlast
    have hinit : s.cmdline.starts s.cursor = s.cmdline.starts j ++ [j] :=
      Block.starts_eq_concat (by omega) hst fun i hi hlt => hrun i hi (by omega)
    have hmap : (s.cmdline.starts s.cursor).map Tkn.at = (s.cmdline.starts j).map .at ++ [.at j] := by
      simp [hinit]
    have hlen : (s.cmdline.starts s.cursor).length =
        ((s.cmdline.starts j).map Tkn.at ++ [Tkn.at j]).length := by
      simp [hinit]
    refine ⟨(s.cmdline.starts j).map .at, .at j, hlen ▸ hwords.le, ?_, ?_, ?_, ?_, ?_⟩
    · simp only [MicrorlT.lastTknT, answer_bind, hload, Option.bind_some, hlast, if_false, hmap, hlen,
        answer_pure]
    · unfold MicrorlT.lastTknT
      rw [meets_bind_of_answer hload, if_neg hlast]
      exact ⟨hmeets, meets_pure _⟩
    · rw [hargv, if_neg hlast, ← hmap, List.map_map]
      rfl
    · exact strT_answer hs _ fun i hi => by cases hi; omega
    · rw [meets_strT_at, Block.length_cstr_le_iff (by omega) (by rw [commandLineLen]; omega)]
      constructor
      · rintro ⟨k, hjk, hk, hzero⟩
        by_cases hlt : k < s.cursor
        · exact absurd hzero (hrun k hjk (by omega))
        · exact Or.inr ⟨k, hk, by omega, hzero⟩
      · rintro (hzero | ⟨k, hk, hck, hzero⟩)
        · exact absurd hzero hlast
        · exact ⟨k, by omega, hk, hzero⟩

/-! ## TAB, twice -/

theorem foundT_answer {status : ℤ} {argv : List (List UInt8)}
    (hrest : ∀ (t : MicrorlT) (name : List UInt8) (len : ℕ) (only : Bool),
      t.cmdline = s.cmdline →
      (t.insertRestT status tkn name len only).answer = t.insertRest argv name len only)
    (hfound : complet keyworld argv = found) (htable : s.getCompletion = some keyworld)
    (hargv : s.completArgv = some argv) :
    (s.foundT status tkn found).answer = s.microrlGetComplite := by
  unfold MicrorlT.microrlGetComplite
  simp only [htable, hargv, hfound, Option.bind_eq_bind, Option.bind_some]
  cases found with
  | nil => rfl
  | cons name names =>
    simp only [MicrorlT.foundT, answer_bind, answer_lift, terminalPrintLineT_answer]
    rw [hrest _ _ _ _ (by split <;> rfl)]

/-- **The traced TAB computes what TAB does**, so that its accesses are
those of the code. -/
theorem microrlGetCompliteT_answer (hs : Sane AnyByte s held) :
    s.microrlGetCompliteT.answer = s.microrlGetComplite := by
  cases htable : s.getCompletion with
  | none =>
    unfold MicrorlT.microrlGetCompliteT MicrorlT.microrlGetComplite
    rw [htable]
    rfl
  | some keyworld =>
    have hunfold : s.microrlGetCompliteT.answer =
        (s.splitT s.cursor).answer.bind fun r => (s.lastTknT r.1 r.2).answer.bind fun r =>
          (s.completT keyworld r.1 r.2).answer.bind fun found =>
            (s.foundT r.1 r.2 found).answer := by
      unfold MicrorlT.microrlGetCompliteT
      rw [htable]
      simp only [answer_bind]
    have hnone : s.completArgv = none → s.microrlGetComplite = none := by
      intro h
      unfold MicrorlT.microrlGetComplite
      rw [htable]
      simp only [h, Option.bind_eq_bind, Option.bind_none]
    rw [hunfold, (splitT_eq hs).1, Option.bind_some]
    have hsplit : split s.cmdline s.cursor = some (answer (s.cmdline.starts s.cursor)) :=
      split_eq (hs.cursor_le.trans hs.cmdlen_le)
    by_cases hpos : 0 < s.cursor
    · by_cases hwords : (s.cmdline.starts s.cursor).length < commandTokenNmb
      · obtain ⟨init, p, hlen, hlast, -, hargv, hp, -⟩ := tokens_of_words hs hpos hwords
        rw [pointers_of_few hwords, hlast, Option.bind_some,
          (completT_of_last keyworld hp hlen).1, Option.bind_some]
        have hgetLast : ((init ++ [p]).map s.text).getLast? = some (s.text p) := by simp
        refine foundT_answer (fun t name len only ht => ?_) ?_ htable hargv
        · have htext : t.text p = s.text p := by
            cases p <;> simp only [MicrorlT.text, ht]
          have hpt : (t.strT p).answer = some (t.text p) := by
            rw [htext, ← hp]
            cases p <;> simp only [MicrorlT.strT, ht]
          exact (insertRestT_of_last hpt hlen (htext ▸ hgetLast) name len only).1
        · rw [complet, hgetLast]
      · rw [pointers_of_many hwords]
        obtain ⟨hload, -⟩ := loadT_last hs hpos
        have hload' : s.cmdline.load (s.cursor - 1) = some (s.cmdline.byte (s.cursor - 1)) := by
          have hcur := hs.cursor_le
          have hle := hs.cmdlen_le
          exact Block.load_of_lt (by rw [commandLineLen]; omega)
        have hargv : s.completArgv = if s.cmdline.byte (s.cursor - 1) = 0 then none else some [] := by
          simp only [MicrorlT.completArgv, hsplit, answer, hwords, if_false, hload',
            diff_of_le (Nat.succ_le_of_lt hpos), Option.bind_eq_bind, Option.bind_some]
          rfl
        by_cases hlast : s.cmdline.byte (s.cursor - 1) = 0
        · rw [hnone (by rw [hargv, if_pos hlast])]
          simp only [MicrorlT.lastTknT, answer_bind, hload, Option.bind_some, hlast, if_true]
          rfl
        · simp only [MicrorlT.lastTknT, answer_bind, hload, Option.bind_some, hlast, if_false,
            answer_pure, MicrorlT.completT, show ¬ (-1 : ℤ) ≥ 1 by decide]
          refine foundT_answer (fun t name len only _ => ?_) rfl htable (by rw [hargv, if_neg hlast])
          -- without a token the length of the last one is looked up in front of the array
          unfold MicrorlT.insertRestT MicrorlT.insertRest
          split
          · rfl
          · rfl
    · have hdiff : diff s.cursor 1 = none := if_neg (by omega)
      rw [hnone (by simp only [MicrorlT.completArgv, hsplit, hdiff, Option.bind_eq_bind,
        Option.bind_some, Option.bind_none])]
      have hneg : (s.loadT ((s.cursor : ℤ) - 1)).answer = none := if_neg (by omega)
      simp only [MicrorlT.lastTknT, answer_bind, hneg, Option.bind_none]

/-! ## Where a TAB is in bounds -/

/-- **Where a TAB is in bounds**: it ends an escape sequence, there is no
callback, or the cursor is behind a byte, and, with fewer than ten words
in front of it, the last token ends in the line or is looked up nowhere;
with ten or more, the last word is not ended, and the names have nothing
in common that would be inserted. -/
def SafeTab (s : MicrorlT) : Prop :=
  s.escape = true ∨ ∀ keyworld ∈ s.getCompletion, 0 < s.cursor ∧
    if (s.cmdline.words s.cursor).length < commandTokenNmb then
      keyworld = [] ∨ s.cmdline.byte (s.cursor - 1) = 0 ∨ Terminated s
    else s.cmdline.byte (s.cursor - 1) ≠ 0 ∧ commonLen keyworld = 0

instance (s : MicrorlT) : Decidable (SafeTab s) :=
  inferInstanceAs (Decidable (_ ∨ ∀ keyworld ∈ s.getCompletion, _ ∧ _))

theorem commonLen_singleton (name : List UInt8) : commonLen [name] = name.length := by
  have hfind : ((List.range name.length).find? fun i => [name].any fun w => name[i]? ≠ w[i]?) =
      none := by
    rw [List.find?_eq_none]
    simp
  simpa [commonLen] using congrArg (fun r => r.getD name.length) hfind

/-- The length to be inserted is that of what the names have in common,
also of the only one. -/
theorem commonLen_eq (name : List UInt8) (names : List (List UInt8)) :
    (if names.isEmpty then name.length else commonLen (name :: names)) =
      commonLen (name :: names) := by
  cases names with
  | nil => exact (commonLen_singleton name).symm
  | cons _ _ => rfl

theorem tab_of_few (hs : Sane AnyByte s held) (htable : s.getCompletion = some keyworld)
    (hpos : 0 < s.cursor) (hwords : (s.cmdline.starts s.cursor).length < commandTokenNmb) :
    s.microrlGetCompliteT.Meets Access.InBounds ↔
      keyworld = [] ∨ s.cmdline.byte (s.cursor - 1) = 0 ∨ Terminated s := by
  obtain ⟨hsplit, hmsplit⟩ := splitT_eq hs
  rw [pointers_of_few hwords] at hsplit
  obtain ⟨init, p, hlen, hlast, hmlast, -, hp, hstr⟩ := tokens_of_words hs hpos hwords
  obtain ⟨hfound, hmfound⟩ := completT_of_last keyworld hp hlen
  unfold MicrorlT.microrlGetCompliteT
  rw [htable]
  simp only [meets_bind_of_answer hsplit, meets_bind_of_answer hlast, meets_bind_of_answer hfound,
    hmsplit, hmlast, true_and, hmfound, hstr]
  refine and_iff_left_of_imp fun h => foundT_of_last hp hlen _ fun hne => hstr.2 ?_
  -- an empty table has no names to be found
  refine h.resolve_left fun hnil => hne ?_
  rw [hnil, List.filter_nil]

theorem tab_of_many (hs : Sane AnyByte s held) (htable : s.getCompletion = some keyworld)
    (hpos : 0 < s.cursor) (hwords : ¬ (s.cmdline.starts s.cursor).length < commandTokenNmb) :
    s.microrlGetCompliteT.Meets Access.InBounds ↔
      s.cmdline.byte (s.cursor - 1) ≠ 0 ∧ commonLen keyworld = 0 := by
  obtain ⟨hsplit, hmsplit⟩ := splitT_eq hs
  rw [pointers_of_many hwords] at hsplit
  obtain ⟨hload, hmload⟩ := loadT_last hs hpos
  unfold MicrorlT.microrlGetCompliteT
  rw [htable]
  simp only [meets_bind_of_answer hsplit, hmsplit, true_and]
  by_cases hlast : s.cmdline.byte (s.cursor - 1) = 0
  · -- the empty token is stored in front of the array
    refine iff_of_false (fun h => ?_) fun h => h.1 hlast
    have hstore := (meets_bind.1 h).1
    rw [MicrorlT.lastTknT, meets_bind_of_answer hload, if_pos hlast, meets_bind,
      meets_storeTkn] at hstore
    exact absurd hstore.2.1.1 (by decide)
  · have hskip : (s.lastTknT (-1) (((s.cmdline.starts s.cursor).take commandTokenNmb).map .at)).answer =
        some (-1, ((s.cmdline.starts s.cursor).take commandTokenNmb).map .at) := by
      simp only [MicrorlT.lastTknT, answer_bind, hload, Option.bind_some, hlast, if_false, answer_pure]
    have hmskip : (s.lastTknT (-1)
        (((s.cmdline.starts s.cursor).take commandTokenNmb).map .at)).Meets Access.InBounds := by
      rw [MicrorlT.lastTknT, meets_bind_of_answer hload, if_neg hlast]
      exact ⟨hmload, meets_pure _⟩
    have hall : (s.completT keyworld (-1)
        (((s.cmdline.starts s.cursor).take commandTokenNmb).map .at)) = pure keyworld :=
      if_neg (by decide)
    simp only [meets_bind_of_answer hskip, hmskip, true_and, hall,
      meets_bind_of_answer (answer_pure keyworld), meets_pure, hlast, ne_eq, not_false_eq_true]
    cases keyworld with
    | nil => exact iff_of_true (meets_pure _) rfl
    | cons name names =>
      simp only [MicrorlT.foundT, commonLen_eq]
      by_cases hzero : commonLen (name :: names) = 0
      · refine iff_of_true ?_ hzero
        refine meets_bind.2 ⟨?_, fun t _ => meets_bind.2 ⟨meets_lift _, fun u _ =>
          meets_terminalPrintLineT u (Nat.zero_le _) _⟩⟩
        rw [MicrorlT.insertRestT, if_pos hzero]
        exact meets_pure _
      · -- the length of a token in front of the array
        refine iff_of_false (fun h => ?_) hzero
        have hrest := (meets_bind.1 h).1
        rw [MicrorlT.insertRestT, if_neg hzero] at hrest
        have hlen := (meets_bind.1 hrest).1
        rw [MicrorlT.lastLenT, meets_bind, meets_loadTkn] at hlen
        exact absurd hlen.1.1 (by decide)

/-- **A TAB is in bounds exactly in the safe states**, among all that are in
range. -/
theorem tabAccesses_iff (hs : Sane AnyByte s held) :
    (∀ a ∈ s.tabAccesses, a.InBounds) ↔ SafeTab s := by
  unfold MicrorlT.tabAccesses SafeTab
  cases hesc : s.escape with
  | true => simp
  | false =>
    simp only [Bool.false_eq_true, if_false, false_or]
    cases htable : s.getCompletion with
    | none =>
      have hnone : s.microrlGetCompliteT = pure s := by
        rw [MicrorlT.microrlGetCompliteT, htable]
      rw [hnone]
      exact iff_of_true (meets_pure _) fun _ h => by cases h
    | some keyworld =>
      have hlen : (s.cmdline.words s.cursor).length = (s.cmdline.starts s.cursor).length :=
        List.length_map ..
      simp only [Option.mem_some_iff, forall_eq', hlen]
      by_cases hpos : 0 < s.cursor
      · rw [and_iff_right hpos]
        split
        · exact tab_of_few hs htable hpos ‹_›
        · exact tab_of_many hs htable hpos ‹_›
      · -- the byte in front of the array
        refine iff_of_false (fun h => ?_) fun h => hpos h.1
        have hmeets : s.microrlGetCompliteT.Meets Access.InBounds := h
        obtain ⟨hsplit, -⟩ := splitT_eq hs
        rw [MicrorlT.microrlGetCompliteT, htable] at hmeets
        simp only [meets_bind_of_answer hsplit] at hmeets
        have hload := (meets_bind.1 (meets_bind.1 hmeets.2).1).1
        have hneg := (hload (.line ((s.cursor : ℤ) - 1) s.cmdlen) (List.mem_singleton.2 rfl)).1
        omega

/-- **Every access of TAB is inside its array exactly in the safe states**
(`SafeTab`): inside an escape sequence, without a callback, or behind a
byte, where the last token ends in the line or is looked up nowhere, and
where with ten words nothing would be inserted. The state is any that keys
from the start lead to, with any commands. -/
theorem tab_inBounds_iff (commands : Option (List (List UInt8))) (execute echo : Bool)
    (bs : List UInt8) {s : MicrorlT}
    (hrun : run MicrorlT.microrlInsertChar (begun commands execute echo) bs = some s) :
    (∀ a ∈ s.tabAccesses, a.InBounds) ↔ SafeTab s := by
  obtain ⟨held, hs, -⟩ := sane_of_run admits_anyByte (sane_begun commands execute echo)
    (namesAdmitted_anyByte _) hrun
  exact tabAccesses_iff hs

/-- Behind "cl", a step back and a second TAB in the middle of "clear ". -/
theorem tab_inBounds_inside :
    ∃ s, run MicrorlT.microrlInsertChar (begun (some Microrl.keyworld) true false)
      (ascii "cl" ++ [9, 2, 2, 2]) = some s ∧ ∀ a ∈ s.tabAccesses, a.InBounds := by
  have hsafe : (run MicrorlT.microrlInsertChar (begun (some Microrl.keyworld) true false)
      (ascii "cl" ++ [9, 2, 2, 2])).map (fun s => decide (SafeTab s)) = some true := by
    decide +kernel
  obtain ⟨s, hrun, hs⟩ := Option.map_eq_some_iff.1 hsafe
  exact ⟨s, hrun, (tab_inBounds_iff _ _ _ _ hrun).2 (of_decide_eq_true hs)⟩

/-- **A TAB on an empty line** reads the byte in front of `cmdline`: the
cursor is 0, and the byte before it is asked for. -/
theorem tab_empty_line : ¬ ∀ (commands : Option (List (List UInt8))) (execute echo : Bool)
    (bs : List UInt8) (s : MicrorlT),
    run MicrorlT.microrlInsertChar (begun commands execute echo) bs = some s →
      ∀ a ∈ s.tabAccesses, a.InBounds := by
  intro h
  have hread := h (some Microrl.keyworld) true false [] _ (run_nil _) (.line (-1) 0) (by decide +kernel)
  exact absurd hread (by decide)

end Microrl

end SlipBoard
