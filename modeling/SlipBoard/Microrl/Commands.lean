import Mathlib.Data.List.Induction
import SlipBoard.Microrl.Model.Commands
import SlipBoard.Microrl.Model.Editor
/-!
# Line editor — completion and execution

The table holds what has been registered (`Registered`), up to its size.
`complet` answers the names with the token in front, in their order,
and `execute` calls the first handler with the name. The two agree, but
for a table nobody has registered anything with: there `complet` finds
nothing, and `execute` stores the default commands before it looks
(`agree_of_registered`).
-/

namespace SlipBoard

namespace Microrl

variable {H : Type} {c : Commands H} {entries : List (CmdStruct H)} {argv : List (List UInt8)}
  {name bit : List UInt8}

/-- **The table holds these commands**, in this order, and its counter is
their number. -/
structure Registered (c : Commands H) (entries : List (CmdStruct H)) : Prop where
  size : c.sizeCmd = entries.length
  fits : entries.length ≤ sizeMasCmd
  masCmd : ∀ (i : ℕ) (e : CmdStruct H), entries[i]? = some e → c.masCmd[i]? = some (some e)
  keyworld : ∀ (i : ℕ) (e : CmdStruct H),
    entries[i]? = some e → c.keyworld[i]? = some (some e.cmdName)

theorem put_of_lt {α : Type} {n i : ℕ} (xs : Vector α n) (v : α) (h : i < n) :
    ∃ ys, put xs i v = some ys ∧ ∀ j, ys[j]? = if j = i then some v else xs[j]? := by
  refine ⟨xs.set i v h, dif_pos h, fun j => ?_⟩
  rw [Vector.getElem?_set]
  split
  · rename_i heq
    rw [if_pos heq.symm]
  · rename_i hne
    rw [if_neg (Ne.symm hne)]

/-! ## Registration -/

theorem registered_init : Registered (Commands.init : Commands H) [] :=
  ⟨rfl, Nat.zero_le _, fun i e h => by simp at h, fun i e h => by simp at h⟩

theorem getElem?_append_singleton {α : Type} {l : List α} {x e : α} {i : ℕ}
    (h : (l ++ [x])[i]? = some e) :
    i = l.length ∧ e = x ∨ i ≠ l.length ∧ l[i]? = some e := by
  rw [List.getElem?_append] at h
  split at h
  · exact Or.inr ⟨by omega, h⟩
  · obtain ⟨hi, rfl⟩ : i - l.length = 0 ∧ x = e := by simpa [List.getElem?_singleton] using h
    exact Or.inl ⟨by omega, rfl⟩

/-- A command goes behind the others, where there is room. -/
theorem Registered.addCmd (h : Registered c entries) (name : List UInt8) (execCmd : H) :
    ∃ c', c.addCmd name execCmd = some c' ∧
      Registered c' ((entries ++ [CmdStruct.mk name execCmd]).take sizeMasCmd) := by
  unfold Commands.addCmd
  by_cases hfull : c.sizeCmd = sizeMasCmd
  · have hlen : entries.length = sizeMasCmd := h.size.symm.trans hfull
    rw [if_pos hfull, ← hlen, List.take_left]
    exact ⟨c, rfl, h⟩
  · have hlt : c.sizeCmd < sizeMasCmd := lt_of_le_of_ne (h.size ▸ h.fits) hfull
    obtain ⟨masCmd, hmas, hmas'⟩ := put_of_lt c.masCmd (some ⟨name, execCmd⟩) hlt
    obtain ⟨keyworld, hkey, hkey'⟩ := put_of_lt c.keyworld (some name) hlt
    have hall : (entries ++ [CmdStruct.mk name execCmd]).take sizeMasCmd =
        entries ++ [CmdStruct.mk name execCmd] := by
      rw [List.take_of_length_le]
      rw [List.length_append, List.length_singleton, ← h.size]
      exact hlt
    rw [if_neg hfull, hmas, hkey, hall]
    refine ⟨_, rfl, by simp [h.size], ?_, fun i e hi => ?_, fun i e hi => ?_⟩
    · rw [List.length_append, List.length_singleton, ← h.size]
      exact hlt
    · show masCmd[i]? = _
      rw [hmas', h.size]
      rcases getElem?_append_singleton hi with ⟨rfl, rfl⟩ | ⟨hne, hi⟩
      · exact if_pos rfl
      · rw [if_neg hne]
        exact h.masCmd i e hi
    · show keyworld[i]? = _
      rw [hkey', h.size]
      rcases getElem?_append_singleton hi with ⟨rfl, rfl⟩ | ⟨hne, hi⟩
      · exact if_pos rfl
      · rw [if_neg hne]
        exact h.keyworld i e hi

/-- What is registered one by one, up to the size of the table. -/
def register (adds : List (CmdStruct H)) : Option (Commands H) :=
  adds.foldlM (fun c e => c.addCmd e.cmdName e.execCmd) .init

theorem take_append_take {α : Type} (n : ℕ) (l : List α) (x : α) :
    (l.take n ++ [x]).take n = (l ++ [x]).take n := by
  rw [List.take_append, List.take_append, List.take_take, min_self, List.length_take]
  congr 2
  omega

/-- **After any registrations** the table holds the first of them, as many
as it has room for; the others are dropped. -/
theorem registered_register (adds : List (CmdStruct H)) :
    ∃ c, register adds = some c ∧ Registered c (adds.take sizeMasCmd) := by
  induction adds using List.reverseRecOn with
  | nil => exact ⟨_, rfl, registered_init⟩
  | append_singleton adds e ih =>
    obtain ⟨c, hc, hreg⟩ := ih
    obtain ⟨c', hc', hreg'⟩ := hreg.addCmd e.cmdName e.execCmd
    refine ⟨c', ?_, ?_⟩
    · rw [register, List.foldlM_append]
      show (register adds).bind _ = _
      rw [hc]
      simp [hc']
    · rwa [take_append_take] at hreg'

/-! ## Execution -/

theorem search_eq (h : Registered c entries) (name : List UInt8) {left i : ℕ}
    (hi : i + left = entries.length) :
    c.search name left i =
      some (((entries.drop i).find? fun e => name = e.cmdName).map CmdStruct.execCmd) := by
  induction left generalizing i with
  | zero =>
    rw [List.drop_eq_nil_of_le (by omega)]
    rfl
  | succ left ih =>
    have hlt : i < entries.length := by omega
    have hcell := h.masCmd i _ (List.getElem?_eq_getElem hlt)
    rw [Commands.search, hcell, List.drop_eq_getElem_cons hlt, List.find?_cons]
    by_cases hname : name = entries[i].cmdName
    · simp [hname]
    · simp only [hname, decide_false, Option.bind_eq_bind, Option.bind_some, if_false]
      exact ih (by omega)

/-- What `execute` does with a table that holds `entries`: the first entry
of that name runs, and where there is none the name is reported. -/
def ranOf (entries : List (CmdStruct H)) (name : List UInt8) (argv : List (List UInt8)) : Ran H :=
  match entries.find? fun e => name = e.cmdName with
  | some e => .handler e.execCmd argv
  | none => .notFound name

theorem execute_of_registered (h : Registered c entries) (hne : entries ≠ [])
    (printHelp cmdClear : H) (name : List UInt8) (args : List (List UInt8)) :
    c.execute printHelp cmdClear (name :: args) = some (c, ranOf entries name (name :: args)) := by
  have hsize : c.sizeCmd ≠ 0 := by
    rw [h.size]
    exact fun hzero => hne (List.length_eq_zero_iff.1 hzero)
  have hsearch := search_eq h name (Nat.zero_add entries.length)
  rw [List.drop_zero, ← h.size] at hsearch
  unfold Commands.execute ranOf
  rw [if_neg hsize]
  simp only [Option.bind_eq_bind, Option.bind_some, List.head?_cons, hsearch]
  cases entries.find? fun e => name = e.cmdName <;> rfl

/-! ## Completion -/

theorem strstr_eq_zero_iff (s bit : List UInt8) :
    strstr s bit = some 0 ↔ bit.isPrefixOf s = true := by
  cases s with
  | nil => cases bit <;> simp [strstr]
  | cons c s =>
    rw [strstr]
    split
    · rename_i h
      exact iff_of_true rfl h
    · rename_i h
      refine iff_of_false ?_ h
      cases strstr s bit <;> simp

/-- The first slots of the completion array hold these names, in their
order. -/
def Filled (compl : Vector (Option (List UInt8)) (sizeMasCmd + 1)) (names : List (List UInt8)) :
    Prop :=
  ∀ (k : ℕ) (name : List UInt8), names[k]? = some name → compl[k]? = some (some name)

theorem Filled.append {compl compl' : Vector (Option (List UInt8)) (sizeMasCmd + 1)}
    {names : List (List UInt8)} (h : Filled compl names)
    (hcell : ∀ (k : ℕ), compl'[k]? = if k = names.length then some (some name) else compl[k]?) :
    Filled compl' (names ++ [name]) := by
  intro k v hk
  rw [hcell]
  rcases getElem?_append_singleton hk with ⟨rfl, rfl⟩ | ⟨hne, hk⟩
  · exact if_pos rfl
  · rw [if_neg hne]
    exact h k v hk

/-- The loop adds the names it has not come to, where they begin with the
token. -/
theorem completLoop_eq (h : Registered c entries) (bit : List UInt8) {left i : ℕ}
    (hi : i + left = entries.length)
    {compl : Vector (Option (List UInt8)) (sizeMasCmd + 1)} {names : List (List UInt8)}
    (hfilled : Filled compl names) (hle : names.length ≤ i) :
    ∃ compl' : Vector (Option (List UInt8)) (sizeMasCmd + 1),
      c.completLoop bit left i names.length compl = some (compl', (names ++
        ((entries.drop i).map CmdStruct.cmdName).filter fun w => bit.isPrefixOf w).length) ∧
      Filled compl'
        (names ++ ((entries.drop i).map CmdStruct.cmdName).filter fun w => bit.isPrefixOf w) := by
  induction left generalizing i compl names with
  | zero =>
    rw [List.drop_eq_nil_of_le (by omega), List.map_nil, List.filter_nil, List.append_nil]
    exact ⟨compl, rfl, hfilled⟩
  | succ left ih =>
    have hlt : i < entries.length := by omega
    have hfits := h.fits
    have hcell := h.keyworld i _ (List.getElem?_eq_getElem hlt)
    rw [Commands.completLoop, hcell, List.drop_eq_getElem_cons hlt, List.map_cons, List.filter_cons]
    simp only [Option.bind_eq_bind, Option.bind_some]
    by_cases hpre : bit.isPrefixOf entries[i].cmdName = true
    · obtain ⟨compl', hput, hcells⟩ := put_of_lt compl (some entries[i].cmdName)
        (show names.length < sizeMasCmd + 1 by omega)
      have hnext := ih (i := i + 1) (by omega) (hfilled.append hcells)
        (by rw [List.length_append, List.length_singleton]; omega)
      rw [if_pos ((strstr_eq_zero_iff _ _).2 hpre), if_pos hpre, hput, Option.bind_some]
      rw [List.append_assoc, List.singleton_append] at hnext
      rw [List.length_append, List.length_singleton] at hnext
      exact hnext
    · rw [if_neg fun hzero => hpre ((strstr_eq_zero_iff _ _).1 hzero), if_neg hpre]
      exact ih (by omega) hfilled (by omega)

theorem copyLoop_eq (h : Registered c entries) {left j : ℕ} (hj : j + left = entries.length)
    {compl : Vector (Option (List UInt8)) (sizeMasCmd + 1)}
    (hfilled : Filled compl ((entries.take j).map CmdStruct.cmdName)) :
    ∃ compl' : Vector (Option (List UInt8)) (sizeMasCmd + 1),
      c.copyLoop left j compl = some (compl', entries.length) ∧
      Filled compl' (entries.map CmdStruct.cmdName) := by
  induction left generalizing j compl with
  | zero =>
    obtain rfl : j = entries.length := by omega
    rw [List.take_length] at hfilled
    exact ⟨compl, rfl, hfilled⟩
  | succ left ih =>
    have hlt : j < entries.length := by omega
    have hfits := h.fits
    have hcell := h.keyworld j _ (List.getElem?_eq_getElem hlt)
    obtain ⟨compl', hput, hcells⟩ := put_of_lt compl (some entries[j].cmdName)
      (show j < sizeMasCmd + 1 by omega)
    rw [Commands.copyLoop, hcell]
    simp only [Option.bind_eq_bind, Option.bind_some, hput]
    refine ih (by omega) ?_
    rw [List.take_add_one, List.getElem?_eq_getElem hlt, Option.toList_some, List.map_append,
      List.map_singleton]
    refine hfilled.append fun k => ?_
    rw [hcells, List.length_map, List.length_take, min_eq_left hlt.le]

/-- A list of names as it is read: up to the first `NULL`, which is
inside the slots. -/
def readList : List (Option (List UInt8)) → Option (List (List UInt8))
  | [] => none
  | none :: _ => some []
  | some name :: cells => (readList cells).map (name :: ·)

theorem readList_of_filled {cells : List (Option (List UInt8))} {names : List (List UInt8)}
    (hnames : ∀ (k : ℕ) (name : List UInt8), names[k]? = some name → cells[k]? = some (some name))
    (hend : cells[names.length]? = some none) : readList cells = some names := by
  induction names generalizing cells with
  | nil =>
    obtain ⟨rest, rfl⟩ : ∃ rest, cells = none :: rest := by
      cases cells with
      | nil => simp at hend
      | cons cell rest => exact ⟨rest, by simpa using hend⟩
    exact congrArg some rfl
  | cons name names ih =>
    obtain ⟨rest, rfl⟩ : ∃ rest, cells = some name :: rest := by
      have hhead := hnames 0 name (List.getElem?_cons_zero ..)
      cases cells with
      | nil => simp at hhead
      | cons cell rest => exact ⟨rest, by simpa using hhead⟩
    have hrest : readList rest = some names := by
      refine ih (fun k v hk => ?_) (by simpa using hend)
      have hcell := hnames (k + 1) v (by simpa using hk)
      simpa using hcell
    rw [readList, hrest, Option.map_some]

/-- What `complet` offers: the strings of its array up to the null pointer. -/
def offers (c : Commands H) (argv : List (List UInt8)) : Option (List (List UInt8)) := do
  readList (← c.complet argv).complWorld.toList

/-- The loop that `complet` runs: over the entries that begin with the last
word, or over all of them where there is no word. -/
def Commands.listLoop (c : Commands H) (argv : List (List UInt8))
    (compl : Vector (Option (List UInt8)) (sizeMasCmd + 1)) :
    Option (Vector (Option (List UInt8)) (sizeMasCmd + 1) × ℕ) :=
  match argv.getLast? with
  | some bit => c.completLoop bit c.sizeCmd 0 0 compl
  | none => c.copyLoop c.sizeCmd 0 compl

/-- **The completion list** holds the names with the last word in front,
and the table stays as it is. -/
theorem complet_of_registered (h : Registered c entries) (argv : List (List UInt8)) :
    ∃ c', c.complet argv = some c' ∧ Registered c' entries ∧
      readList c'.complWorld.toList = some (complet (entries.map CmdStruct.cmdName) argv) := by
  have hfits := h.fits
  obtain ⟨compl, hput, -⟩ := put_of_lt c.complWorld none (show 0 < sizeMasCmd + 1 by omega)
  have hnone : Filled compl [] := fun k name hk => by simp at hk
  -- both loops leave the names in front of `j`
  obtain ⟨compl₁, hloop, hfilled⟩ : ∃ compl₁ : Vector (Option (List UInt8)) (sizeMasCmd + 1),
      c.listLoop argv compl =
        some (compl₁, (complet (entries.map CmdStruct.cmdName) argv).length) ∧
      Filled compl₁ (complet (entries.map CmdStruct.cmdName) argv) := by
    unfold complet Commands.listLoop
    rw [h.size]
    cases argv.getLast? with
    | none =>
      obtain ⟨compl₁, hloop, hfilled⟩ := copyLoop_eq h (Nat.zero_add entries.length) hnone
      refine ⟨compl₁, ?_, hfilled⟩
      rw [List.length_map]
      exact hloop
    | some bit => exact completLoop_eq h bit (Nat.zero_add entries.length) hnone (Nat.zero_le 0)
  have hlen : (complet (entries.map CmdStruct.cmdName) argv).length ≤ entries.length := by
    unfold complet
    cases argv.getLast? with
    | none => exact (List.length_map _).le
    | some bit => exact (List.length_filter_le _ _).trans (List.length_map _).le
  obtain ⟨compl₂, hend, hcells⟩ := put_of_lt compl₁ none
    (show (complet (entries.map CmdStruct.cmdName) argv).length < sizeMasCmd + 1 by omega)
  refine ⟨{ c with complWorld := compl₂ }, ?_, ⟨h.size, h.fits, h.masCmd, h.keyworld⟩, ?_⟩
  · unfold Commands.complet
    rw [hput, Option.bind_eq_bind, Option.bind_some]
    unfold Commands.listLoop at hloop
    cases hlast : argv.getLast? with
    | none =>
      rw [hlast] at hloop
      simp [hloop, hend]
    | some bit =>
      rw [hlast] at hloop
      simp [hloop, hend]
  · refine readList_of_filled (fun k name hk => ?_) ?_
    · have hlt : k < (complet (entries.map CmdStruct.cmdName) argv).length :=
        (List.getElem?_eq_some_iff.1 hk).1
      rw [Vector.getElem?_toList, hcells, if_neg hlt.ne]
      exact hfilled k name hk
    · rw [Vector.getElem?_toList, hcells, if_pos rfl]

/-! ## Completion and execution -/

/-- `execute` finds a handler for a name, in the table as it is then: where
nothing has been registered it registers the defaults first. -/
def Executable (printHelp cmdClear : H) (c : Commands H) (name : List UInt8) : Prop :=
  ∃ (c' : Commands H) (execCmd : H),
    c.execute printHelp cmdClear [name] = some (c', .handler execCmd [name])

/-- **Completion and execution agree** on a table with these commands. -/
structure AgreeOn (printHelp cmdClear : H) (c : Commands H) (entries : List (CmdStruct H)) :
    Prop where
  complet : ∀ (argv : List (List UInt8)) (t : List UInt8), offers c (argv ++ [t]) =
    some ((entries.map CmdStruct.cmdName).filter fun name => t.isPrefixOf name)
  execute : ∀ (t : List UInt8) (args : List (List UInt8)),
    c.execute printHelp cmdClear (t :: args) = some (c, ranOf entries t (t :: args))
  offered_iff : ∀ (argv : List (List UInt8)) (t name : List UInt8),
    (∃ names, offers c (argv ++ [t]) = some names ∧ name ∈ names) ↔
      Executable printHelp cmdClear c name ∧ t <+: name
  full : entries.length = sizeMasCmd →
    ∀ (name : List UInt8) (execCmd : H), c.addCmd name execCmd = some c

theorem offers_of_registered (h : Registered c entries) (argv : List (List UInt8))
    (t : List UInt8) :
    offers c (argv ++ [t]) =
      some ((entries.map CmdStruct.cmdName).filter fun name => t.isPrefixOf name) := by
  obtain ⟨c', hcomplet, -, hlist⟩ := complet_of_registered h (argv ++ [t])
  rw [offers, hcomplet]
  simpa [Microrl.complet] using hlist

theorem executable_iff (h : Registered c entries) (hne : entries ≠ []) (printHelp cmdClear : H)
    (name : List UInt8) :
    Executable printHelp cmdClear c name ↔ name ∈ entries.map CmdStruct.cmdName := by
  unfold Executable
  rw [execute_of_registered h hne, ranOf]
  cases hfind : entries.find? fun e => name = e.cmdName with
  | none =>
    refine iff_of_false (fun ⟨c', execCmd, heq⟩ => by simp at heq) fun hmem => ?_
    obtain ⟨e, he, rfl⟩ := List.mem_map.1 hmem
    simpa using List.find?_eq_none.1 hfind e he
  | some e =>
    have hname : name = e.cmdName := by simpa using List.find?_some hfind
    exact iff_of_true ⟨c, e.execCmd, rfl⟩
      (hname ▸ List.mem_map_of_mem (List.mem_of_find?_eq_some hfind))

theorem Registered.agreeOn (h : Registered c entries) (hne : entries ≠ [])
    (printHelp cmdClear : H) :
    AgreeOn printHelp cmdClear c entries := by
  refine ⟨offers_of_registered h, execute_of_registered h hne printHelp cmdClear,
    fun argv t name => ?_, fun hfull name execCmd => ?_⟩
  · rw [executable_iff h hne, offers_of_registered h]
    constructor
    · rintro ⟨names, hnames, hmem⟩
      rw [← Option.some.inj hnames] at hmem
      obtain ⟨hmem, hpre⟩ := List.mem_filter.1 hmem
      exact ⟨hmem, List.isPrefixOf_iff_prefix.1 hpre⟩
    · rintro ⟨hmem, hpre⟩
      exact ⟨_, rfl, List.mem_filter.2 ⟨hmem, List.isPrefixOf_iff_prefix.2 hpre⟩⟩
  · unfold Commands.addCmd
    rw [if_pos (h.size.trans hfull)]

/-- The default commands, which `execute` stores in an empty table. -/
def defaults (printHelp cmdClear : H) : List (CmdStruct H) :=
  [⟨ascii "help", printHelp⟩, ⟨ascii "clear", cmdClear⟩]

theorem execute_of_empty (h : Registered c []) (printHelp cmdClear : H) :
    ∃ c', c.initDefoultCMD printHelp cmdClear = some c' ∧
      Registered c' (defaults printHelp cmdClear) ∧
      ∀ argv, c.execute printHelp cmdClear argv = c'.execute printHelp cmdClear argv := by
  obtain ⟨c₁, hadd₁, hreg₁⟩ := h.addCmd (ascii "help") printHelp
  obtain ⟨c₂, hadd₂, hreg₂⟩ := hreg₁.addCmd (ascii "clear") cmdClear
  have hinit : c.initDefoultCMD printHelp cmdClear = some c₂ := by
    rw [Commands.initDefoultCMD, hadd₁]
    exact hadd₂
  have hzero : c.sizeCmd = 0 := h.size
  have hsize : c₂.sizeCmd ≠ 0 := by
    rw [hreg₂.size]
    exact Nat.succ_ne_zero 1
  refine ⟨c₂, hinit, hreg₂, fun argv => ?_⟩
  unfold Commands.execute
  rw [if_pos hzero, if_neg hsize, hinit]

/-- **Completion and execution agree after any registrations**: what TAB
offers are the names that Enter runs. Without a registration they do not:
execution stores the default commands first, and completion, which does not,
offers nothing. -/
theorem agree_of_registered (printHelp cmdClear : H) (adds : List (CmdStruct H)) :
    ∃ c, register adds = some c ∧
      (adds ≠ [] → AgreeOn printHelp cmdClear c (adds.take sizeMasCmd)) ∧
      (adds = [] →
        (∀ (argv : List (List UInt8)) (t : List UInt8), offers c (argv ++ [t]) = some []) ∧
        ∃ c', c.initDefoultCMD printHelp cmdClear = some c' ∧
          AgreeOn printHelp cmdClear c' (defaults printHelp cmdClear) ∧
          ∀ argv, c.execute printHelp cmdClear argv = c'.execute printHelp cmdClear argv) := by
  obtain ⟨c, hc, hreg⟩ := registered_register adds
  refine ⟨c, hc, fun hne => ?_, ?_⟩
  · refine hreg.agreeOn (fun hnil => hne ?_) printHelp cmdClear
    rcases List.take_eq_nil_iff.1 hnil with hzero | hnil
    · exact absurd hzero (by decide)
    · exact hnil
  · rintro rfl
    obtain ⟨c', hinit, hreg', hexecute⟩ := execute_of_empty hreg printHelp cmdClear
    exact ⟨offers_of_registered hreg, c', hinit, hreg'.agreeOn (List.cons_ne_nil _ _) _ _, hexecute⟩

/-- Nothing is registered: `help` runs, and is not offered for `he`. -/
theorem help_runs_unoffered : ∃ c, register ([] : List (CmdStruct Bool)) = some c ∧
    c.sizeCmd = 0 ∧ Executable true false c (ascii "help") ∧ offers c [ascii "he"] = some [] ∧
    ¬ AgreeOn true false c [] := by
  have hrun : Executable true false (.init : Commands Bool) (ascii "help") := by
    obtain ⟨c', -, hreg, hexecute⟩ := execute_of_empty registered_init true false
    refine ⟨c', true, ?_⟩
    rw [hexecute, execute_of_registered hreg (List.cons_ne_nil _ _)]
    have hran : ranOf (defaults true false) (ascii "help") [ascii "help"] =
        .handler true [ascii "help"] := by
      decide +kernel
    rw [hran]
  have hoffer : offers (.init : Commands Bool) [ascii "he"] = some [] :=
    offers_of_registered registered_init [] (ascii "he")
  refine ⟨.init, rfl, rfl, hrun, hoffer, fun hagree => ?_⟩
  obtain ⟨names, hnames, hmem⟩ := (hagree.offered_iff [] (ascii "he") (ascii "help")).2
    ⟨hrun, ⟨ascii "lp", by decide +kernel⟩⟩
  rw [List.nil_append, hoffer] at hnames
  rw [← Option.some.inj hnames] at hmem
  simp at hmem

end Microrl

end SlipBoard
