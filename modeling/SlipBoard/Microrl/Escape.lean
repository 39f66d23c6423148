import SlipBoard.Microrl.Execute
/-!
# Line editor — escape sequences that follow one another

`escape` tells whether a sequence is open, and `escape_seq` how far it
has come. ESC sets the first and leaves the second as the last sequence
left it, so the byte behind ESC is read as if that sequence still went
on. `onto` is a state with other logs in front of its own, and a
position of its own: the keys of the switch commute with it
(`processKey_onto`), and a byte of a sequence where the position stays
(`escapeProcess_onto`). So two editors in the same position never come
apart, and two in different positions do (`exists_apart`).
-/

namespace SlipBoard

namespace Microrl

open Transition

variable {s t s' t' : MicrorlT} {held : List (List UInt8)} {g : EscSeq → EscSeq} {o : List UInt8}
  {c : List Call}

/-- The state behind other logs, with the position in a sequence
changed. -/
def MicrorlT.onto (g : EscSeq → EscSeq) (o : List UInt8) (c : List Call) (s : MicrorlT) :
    MicrorlT :=
  { s with escapeSeq := g s.escapeSeq, out := o ++ s.out, calls := c ++ s.calls }

/-! ## The keys do not read what `onto` changes -/

theorem print_onto (s : MicrorlT) (str : List UInt8) :
    (s.onto g o c).print str = (s.print str).onto g o c := by
  simp [MicrorlT.print, MicrorlT.onto]

theorem terminalMoveCursor_onto (s : MicrorlT) (offset : ℤ) :
    (s.onto g o c).terminalMoveCursor offset = (s.terminalMoveCursor offset).onto g o c := by
  rw [terminalMoveCursor_eq, terminalMoveCursor_eq, print_onto]

theorem terminalResetCursor_onto (s : MicrorlT) :
    (s.onto g o c).terminalResetCursor = s.terminalResetCursor.map (·.onto g o c) := by
  simp only [MicrorlT.terminalResetCursor, print_onto, apply_ite (Option.map _), Option.map_some,
    Option.map_none]
  rfl

theorem terminalPrintLine_onto (s : MicrorlT) (pos cursor : ℕ) :
    (s.onto g o c).terminalPrintLine pos cursor =
      (s.terminalPrintLine pos cursor).map (·.onto g o c) := by
  simp only [MicrorlT.terminalPrintLine, print_onto, terminalResetCursor_onto,
    terminalMoveCursor_onto, Option.bind_eq_bind, Option.map_bind, Option.bind_map,
    Function.comp_def, Option.pure_def, Option.map_some]
  rfl

theorem microrlInsertText_onto (s : MicrorlT) (text : List UInt8) :
    (s.onto g o c).microrlInsertText text =
      (s.microrlInsertText text).map fun r => (r.1.onto g o c, r.2) := by
  simp only [MicrorlT.microrlInsertText, apply_ite (Option.map _), Option.bind_eq_bind,
    Option.map_bind, Function.comp_def, Option.pure_def, Option.map_some]
  rfl

theorem microrlBackspace_onto (s : MicrorlT) :
    (s.onto g o c).microrlBackspace = s.microrlBackspace.map (·.onto g o c) := by
  simp only [MicrorlT.microrlBackspace, MicrorlT.terminalBackspace, print_onto,
    apply_ite (Option.map _), Option.bind_eq_bind, Option.map_bind, Function.comp_def,
    Option.pure_def, Option.map_some]
  rfl

theorem histSearch_onto (s : MicrorlT) (dir : Dir) :
    (s.onto g o c).histSearch dir = (s.histSearch dir).map (·.onto g o c) := by
  unfold MicrorlT.histSearch
  simp only [Option.bind_eq_bind, Option.map_bind]
  refine congrArg _ (funext ?_)
  rintro ⟨ringHist, cmdline, ret⟩
  cases ret with
  | none => rfl
  | some len =>
    simp only [Function.comp_apply, Option.map_bind]
    refine congrArg _ (funext fun cmdline' => ?_)
    let u : MicrorlT :=
      { s with ringHist := ringHist, cmdline := cmdline', cmdlen := len, cursor := len }
    have hu : ((u.onto g o c).terminalResetCursor.bind fun v => v.terminalPrintLine 0 len) =
        u.terminalResetCursor.bind fun v => (v.terminalPrintLine 0 len).map (·.onto g o c) := by
      rw [terminalResetCursor_onto, Option.bind_map]
      exact congrArg _ (funext fun v => terminalPrintLine_onto v 0 len)
    exact hu

theorem killToBegin_onto (fuel : ℕ) (s : MicrorlT) :
    MicrorlT.killToBegin fuel (s.onto g o c) =
      (MicrorlT.killToBegin fuel s).map (·.onto g o c) := by
  induction fuel generalizing s with
  | zero => rfl
  | succ fuel ih =>
    simp only [MicrorlT.killToBegin, microrlBackspace_onto, ih, apply_ite (Option.map _),
      Option.bind_eq_bind, Option.map_bind, Option.bind_map, Function.comp_def, Option.map_some]
    rfl

theorem keyNak_onto (s : MicrorlT) : (s.onto g o c).keyNak = s.keyNak.map (·.onto g o c) := by
  simp only [MicrorlT.keyNak, killToBegin_onto, Option.bind_eq_bind, Option.bind_map,
    Option.map_bind]
  exact congrArg _ (funext fun u => terminalPrintLine_onto u 0 u.cursor)

theorem keyVt_onto (s : MicrorlT) : (s.onto g o c).keyVt = s.keyVt.onto g o c := by
  simp only [MicrorlT.keyVt, print_onto]
  rfl

theorem toEnd_onto (s : MicrorlT) : (s.onto g o c).toEnd = s.toEnd.onto g o c := by
  simp only [MicrorlT.toEnd, terminalMoveCursor_onto]
  rfl

theorem toBegin_onto (s : MicrorlT) : (s.onto g o c).toBegin = s.toBegin.map (·.onto g o c) := by
  simp only [MicrorlT.toBegin, terminalResetCursor_onto, Option.bind_eq_bind, Option.bind_map,
    Option.map_bind]
  rfl

theorem toRight_onto (s : MicrorlT) : (s.onto g o c).toRight = s.toRight.onto g o c := by
  simp only [MicrorlT.toRight, terminalMoveCursor_onto, apply_ite (MicrorlT.onto g o c)]
  rfl

theorem toLeft_onto (s : MicrorlT) : (s.onto g o c).toLeft = s.toLeft.onto g o c := by
  simp only [MicrorlT.toLeft, terminalMoveCursor_onto, apply_ite (MicrorlT.onto g o c)]
  rfl

theorem keyDel_onto (s : MicrorlT) : (s.onto g o c).keyDel = s.keyDel.map (·.onto g o c) := by
  simp only [MicrorlT.keyDel, microrlBackspace_onto, Option.bind_eq_bind, Option.bind_map,
    Option.map_bind]
  exact congrArg _ (funext fun u => terminalPrintLine_onto u u.cursor u.cursor)

theorem keyDc2_onto (s : MicrorlT) : (s.onto g o c).keyDc2 = s.keyDc2.map (·.onto g o c) := by
  have hprompt : (s.onto g o c).terminalNewline.printPrompt =
      s.terminalNewline.printPrompt.onto g o c := by
    rw [MicrorlT.terminalNewline, print_onto, MicrorlT.printPrompt]
    exact print_onto _ _
  simp only [MicrorlT.keyDc2, hprompt, terminalResetCursor_onto, Option.bind_eq_bind,
    Option.bind_map, Option.map_bind]
  exact congrArg _ (funext fun u => terminalPrintLine_onto u 0 u.cursor)

theorem keyDefault_onto (s : MicrorlT) (ch : UInt8) :
    (s.onto g o c).keyDefault ch = (s.keyDefault ch).map (·.onto g o c) := by
  have hshow : ∀ u : MicrorlT, (if !(u.onto g o c).terminalHasEcho
        then (diff (u.onto g o c).cursor 1).bind fun pos =>
          (u.onto g o c).terminalPrintLine pos (u.onto g o c).cursor
        else (u.onto g o c).terminalPrintLine (u.onto g o c).cursor (u.onto g o c).cursor) =
      (if !u.terminalHasEcho then (diff u.cursor 1).bind fun pos => u.terminalPrintLine pos u.cursor
        else u.terminalPrintLine u.cursor u.cursor).map (·.onto g o c) := by
    intro u
    simp only [terminalPrintLine_onto, apply_ite (Option.map _), Option.map_bind]
    rfl
  simp only [MicrorlT.keyDefault, microrlInsertText_onto, apply_ite (Option.map _),
    Option.bind_eq_bind, Option.bind_map, Option.map_bind, Option.pure_def, Option.map_some]
  congr 1
  refine congrArg _ (funext ?_)
  rintro ⟨u, inserted⟩
  cases inserted with
  | false => rfl
  | true => exact hshow u

/-! ## TAB and Enter -/

theorem printNames_onto (s : MicrorlT) (names : List (List UInt8)) :
    (s.onto g o c).printNames names = (s.printNames names).onto g o c := by
  simp only [MicrorlT.printNames, MicrorlT.terminalNewline, MicrorlT.printPrompt, print_onto]
  rfl

theorem insertRest_onto (s : MicrorlT) (argv : List (List UInt8)) (name : List UInt8) (len : ℕ)
    (only : Bool) :
    (s.onto g o c).insertRest argv name len only =
      (s.insertRest argv name len only).map (·.onto g o c) := by
  unfold MicrorlT.insertRest
  split
  · rfl
  simp only [microrlInsertText_onto, Option.bind_eq_bind, Option.bind_map, Option.map_bind,
    Function.comp_def]
  refine congrArg _ (funext fun tkn => congrArg _ (funext fun rest => congrArg _ (funext ?_)))
  rintro ⟨u, -⟩
  cases only with
  | false => rfl
  | true =>
    simp only [if_true, Option.map_bind]
    rfl

theorem microrlGetComplite_onto (s : MicrorlT) :
    (s.onto g o c).microrlGetComplite = s.microrlGetComplite.map (·.onto g o c) := by
  unfold MicrorlT.microrlGetComplite
  have hcompletion : (s.onto g o c).getCompletion = s.getCompletion := rfl
  rw [hcompletion]
  cases s.getCompletion with
  | none => rfl
  | some keyworld =>
    simp only [Option.bind_eq_bind, Option.map_bind]
    refine congrArg _ (funext fun argv => ?_)
    cases hfound : complet keyworld argv with
    | nil => simp only [Function.comp_apply, hfound, Option.pure_def, Option.map_some]
    | cons name names =>
      have hnames : (if names.isEmpty then s.onto g o c
            else (s.onto g o c).printNames (name :: names)) =
          (if names.isEmpty then s else s.printNames (name :: names)).onto g o c := by
        rw [printNames_onto, apply_ite (MicrorlT.onto g o c)]
      simp only [Function.comp_apply, hfound, hnames, insertRest_onto, Option.bind_map,
        Option.map_bind]
      refine congrArg _ (funext fun u => ?_)
      simp only [Function.comp_apply, terminalResetCursor_onto, Option.bind_map]
      exact congrArg _ (funext fun v => terminalPrintLine_onto v 0 u.cursor)

theorem newLineHandler_onto (s : MicrorlT) :
    (s.onto g o c).newLineHandler = s.newLineHandler.map (·.onto g o c) := by
  have hrun : ∀ (u : MicrorlT) (status : Option ℕ × List ℕ),
      ((u.onto g o c).runLine status).printPrompt =
      ((u.runLine status).printPrompt).onto g o c := by
    rintro u ⟨status, tkn⟩
    rw [MicrorlT.printPrompt, MicrorlT.printPrompt]
    cases status with
    | none =>
      simp only [MicrorlT.runLine, print_onto]
      rfl
    | some n =>
      simp only [MicrorlT.runLine, ← print_onto]
      split
      · rename_i hcall
        rw [if_pos (by exact hcall)]
        simp [MicrorlT.print, MicrorlT.onto]
      · rename_i hcall
        rw [if_neg (by exact hcall)]
        rfl
  simp only [MicrorlT.newLineHandler, MicrorlT.terminalNewline, print_onto, hrun,
    Option.bind_eq_bind, Option.map_bind, Function.comp_def]
  rfl

/-- **The keys of the switch** read neither the logs nor the position in
a sequence, and leave the position. -/
theorem processKey_onto (s : MicrorlT) (ch : UInt8) :
    (s.onto g o c).processKey ch = (s.processKey ch).map (·.onto g o c) := by
  simp only [MicrorlT.processKey, newLineHandler_onto, microrlGetComplite_onto, keyNak_onto,
    keyVt_onto, toEnd_onto, toBegin_onto, toRight_onto, toLeft_onto, histSearch_onto, keyDel_onto,
    keyDc2_onto, keyDefault_onto, apply_ite (Option.map _), Option.map_some]
  rfl

/-- **A byte of a sequence** does not read the logs. -/
theorem escapeProcess_onto (s : MicrorlT) (ch : UInt8) :
    (s.onto id o c).escapeProcess ch =
      (s.escapeProcess ch).map fun r => (r.1.onto id o c, r.2) := by
  simp only [MicrorlT.escapeProcess, histSearch_onto, toRight_onto, toLeft_onto, toBegin_onto,
    toEnd_onto, apply_ite (Option.map _), Option.bind_eq_bind, Option.bind_map, Option.map_bind,
    Option.map_some]
  rfl

theorem microrlInsertChar_onto (s : MicrorlT) (ch : UInt8) :
    (s.onto id o c).microrlInsertChar ch = (s.microrlInsertChar ch).map (·.onto id o c) := by
  unfold MicrorlT.microrlInsertChar
  have hescape : (s.onto id o c).escape = s.escape := rfl
  rw [hescape]
  cases s.escape with
  | false => exact processKey_onto s ch
  | true =>
    simp only [if_true, escapeProcess_onto, Option.bind_eq_bind, Option.bind_map, Option.map_bind]
    refine congrArg _ (funext ?_)
    rintro ⟨u, done⟩
    cases done <;> rfl

/-! ## Two editors in the same position -/

/-- The two agree on the line, the cursor and the history. -/
def Agree (s t : MicrorlT) : Prop :=
  s.cmdline = t.cmdline ∧ s.cmdlen = t.cmdlen ∧ s.cursor = t.cursor ∧ s.ringHist = t.ringHist

/-- Both runs over `bs` answer and their editors agree, or neither run
answers. -/
def AgreeAfter (s t : MicrorlT) (bs : List UInt8) : Prop :=
  Option.Rel Agree (run MicrorlT.microrlInsertChar s bs) (run MicrorlT.microrlInsertChar t bs)

theorem Agree.symm (h : Agree s t) : Agree t s := ⟨h.1.symm, h.2.1.symm, h.2.2.1.symm, h.2.2.2.symm⟩

theorem AgreeAfter.symm {bs : List UInt8} (h : AgreeAfter s t bs) : AgreeAfter t s bs := by
  unfold AgreeAfter at h ⊢
  generalize run MicrorlT.microrlInsertChar s bs = u at h ⊢
  generalize run MicrorlT.microrlInsertChar t bs = v at h ⊢
  cases h with
  | none => exact .none
  | some h => exact .some h.symm

/-- The first bytes do not matter to the agreement where both editors answer
them: it is that of the states behind. -/
theorem agreeAfter_append {as bs : List UInt8} (hs : run MicrorlT.microrlInsertChar s as = some s')
    (ht : run MicrorlT.microrlInsertChar t as = some t') :
    AgreeAfter s t (as ++ bs) ↔ AgreeAfter s' t' bs := by
  have happend : ∀ {u u' : MicrorlT}, run MicrorlT.microrlInsertChar u as = some u' →
      run MicrorlT.microrlInsertChar u (as ++ bs) = run MicrorlT.microrlInsertChar u' bs := by
    intro u u' hu
    ext v
    rw [run_append, hu]
    simp
  rw [AgreeAfter, AgreeAfter, happend hs, happend ht]

theorem agreeAfter_iff {bs : List UInt8} (hs : run MicrorlT.microrlInsertChar s bs = some s')
    (ht : run MicrorlT.microrlInsertChar t bs = some t') : AgreeAfter s t bs ↔ Agree s' t' := by
  rw [AgreeAfter, hs, ht]
  constructor
  · rintro ⟨h⟩
    exact h
  · exact .some

/-- **In the same position** two editors that agree never come apart,
whatever bytes follow. -/
theorem Agree.agreeAfter (h : Agree s t) (hset : s.settings = t.settings)
    (hesc : s.escape = t.escape) (hseq : s.escapeSeq = t.escapeSeq) (bs : List UInt8) :
    AgreeAfter s t bs := by
  obtain ⟨hline, hlen, hcur, hhist⟩ := h
  simp only [MicrorlT.settings, Prod.mk.injEq] at hset
  obtain ⟨hprompt, hlne, hecho, hnames, hexec⟩ := hset
  -- both stand on one state without logs
  let u : MicrorlT := { s with out := [], calls := [] }
  have hs : u.onto id s.out s.calls = s := by
    simp [u, MicrorlT.onto]
  have ht : u.onto id t.out t.calls = t := by
    simp [u, MicrorlT.onto, *]
  have hrun : ∀ o c, run MicrorlT.microrlInsertChar (u.onto id o c) bs =
      (run MicrorlT.microrlInsertChar u bs).map (·.onto id o c) :=
    fun o c => run_map microrlInsertChar_onto u bs
  rw [AgreeAfter, ← hs, ← ht, hrun, hrun]
  cases run MicrorlT.microrlInsertChar u bs with
  | none => exact .none
  | some v => exact .some ⟨rfl, rfl, rfl, rfl⟩

/-! ## Two editors in different positions -/

/-- The keys leave the position of the last sequence. -/
theorem processKey_escapeSeq {ch : UInt8} (h : s.processKey ch = some s') :
    s'.escapeSeq = s.escapeSeq := by
  have hself : s.onto (fun _ => s.escapeSeq) [] [] = s := rfl
  have honto := processKey_onto (g := fun _ => s.escapeSeq) (o := []) (c := []) s ch
  rw [hself, h, Option.map_some, Option.some.injEq] at honto
  rw [honto]
  rfl

theorem microrlInsertChar_of_closed (hesc : s.escape = false) (ch : UInt8) :
    s.microrlInsertChar ch = s.processKey ch := by
  unfold MicrorlT.microrlInsertChar
  rw [hesc]
  rfl

/-- A line of two characters, with the cursor between them, and no
sequence open. -/
structure Between (s : MicrorlT) : Prop where
  cmdlen : s.cmdlen = 2
  cursor : s.cursor = 1
  escape : s.escape = false
  prompt_lt : s.promptLen < 10000

/-- An `x` at the end of a short line. -/
theorem processKey_x (hs : Sane AnyByte s held) (hlen : s.cmdlen + 1 < 101) :
    ∃ s', s.processKey 120 = some s' ∧ Sane AnyByte s' held ∧ s'.cmdlen = s.cmdlen + 1 ∧
      s'.cursor = s.cursor + 1 ∧ s'.escape = s.escape := by
  have hkey : ¬ (((120 : UInt8) = 32 ∧ s.cmdlen = 0) ∨ (120 : UInt8) ≤ 31) := by simp
  obtain ⟨hsane, heq⟩ := keyDefault_eq admits_anyByte hs hkey (by decide) hlen
  exact ⟨_, heq, hsane.print _, rfl, rfl, rfl⟩

/-- Enter, `xx` and a step back lead there, without a change of the
sequence's position. -/
theorem run_between (hs : Sane AnyByte s held) (hesc : s.escape = false) :
    ∃ s', run MicrorlT.microrlInsertChar s [13, 120, 120, 2] = some s' ∧ Between s' ∧
      s'.escapeSeq = s.escapeSeq := by
  obtain ⟨s₁, held₁, henter, hs₁, -, hlen₁, hesc₁, -⟩ := newLineHandler_eq admits_anyByte hs
  have hcur₁ := hs₁.cursor_le
  obtain ⟨s₂, hx₂, hs₂, hlen₂, hcur₂, hesc₂⟩ := processKey_x hs₁ (by omega)
  obtain ⟨s₃, hx₃, hs₃, hlen₃, hcur₃, hesc₃⟩ := processKey_x hs₂ (by omega)
  have hleft : s₃.processKey 2 = some s₃.toLeft := rfl
  have hto : s₃.toLeft = { s₃.terminalMoveCursor (-1) with cursor := s₃.cursor - 1 } :=
    if_pos (by omega)
  rw [hesc] at hesc₁
  rw [hesc₁] at hesc₂
  rw [hesc₂] at hesc₃
  have hseq : s₃.toLeft.escapeSeq = s.escapeSeq := by
    rw [processKey_escapeSeq hleft, processKey_escapeSeq hx₃, processKey_escapeSeq hx₂]
    exact processKey_escapeSeq (show s.processKey 13 = some s₁ from henter)
  rw [hto, terminalMoveCursor_eq] at hseq
  rw [hto, terminalMoveCursor_eq] at hleft
  refine ⟨_, ?_, ⟨?_, ?_, ?_, ?_⟩, hseq⟩
  · refine run_cons.2 ⟨s₁, (microrlInsertChar_enter hesc).trans henter, ?_⟩
    refine run_cons.2 ⟨s₂, (microrlInsertChar_of_closed hesc₁ _).trans hx₂, ?_⟩
    refine run_cons.2 ⟨s₃, (microrlInsertChar_of_closed hesc₂ _).trans hx₃, ?_⟩
    exact run_cons.2 ⟨_, (microrlInsertChar_of_closed hesc₃ _).trans hleft, rfl⟩
  · show s₃.cmdlen = 2
    omega
  · show s₃.cursor - 1 = 1
    omega
  · exact hesc₃
  · exact hs₃.prompt_lt

/-- Where ESC `~` leaves the cursor of a line of two characters, from the
place between them: it depends on what is left of an earlier sequence. -/
def tildeCursor : EscSeq → ℕ
  | .home => 0
  | .end => 2
  | _ => 1

/-- Where ESC `D` leaves it, which depends on the same. -/
def leftCursor : EscSeq → ℕ
  | .bracket => 0
  | _ => 1

/-- The byte that ends a sequence leaves the editor outside of it. -/
theorem run_escape {ch : UInt8} (hesc : s.escape = false)
    (hproc : MicrorlT.escapeProcess { s with escape := true } ch = some (s', true)) :
    run MicrorlT.microrlInsertChar s [27, ch] = some { s' with escape := false } := by
  have hopen : s.microrlInsertChar 27 = some { s with escape := true } :=
    microrlInsertChar_of_closed hesc 27
  have hend : MicrorlT.microrlInsertChar { s with escape := true } ch =
      some { s' with escape := false } := by
    unfold MicrorlT.microrlInsertChar
    rw [if_pos rfl, hproc]
    rfl
  simp only [run, hopen, hend, Option.bind_some]

theorem Between.run_tilde (h : Between s) :
    ∃ s', run MicrorlT.microrlInsertChar s [27, 126] = some s' ∧
      s'.cursor = tildeCursor s.escapeSeq := by
  obtain ⟨hlen, hcur, hesc, hprompt⟩ := h
  let u : MicrorlT := { s with escape := true }
  have htilde : u.escapeProcess 126 = if s.escapeSeq = .bracket then some (u, true)
      else if s.escapeSeq = .home then do return (← u.toBegin, true)
      else if s.escapeSeq = .end then some (u.toEnd, true) else some (u, true) := rfl
  cases hseq : s.escapeSeq with
  | unset => exact ⟨_, run_escape hesc
    (show u.escapeProcess 126 = some (u, true) from htilde.trans (by rw [hseq]; rfl)), hcur⟩
  | bracket => exact ⟨_, run_escape hesc
    (show u.escapeProcess 126 = some (u, true) from htilde.trans (by rw [hseq]; rfl)), hcur⟩
  | home =>
    have hbegin : u.toBegin = some { u.print (resetSeq s.promptLen) with cursor := 0 } := by
      rw [MicrorlT.toBegin, terminalResetCursor_eq (by exact hprompt)]
      rfl
    exact ⟨_, run_escape hesc (htilde.trans (by rw [hseq, hbegin]; rfl)), rfl⟩
  | «end» => exact ⟨_, run_escape hesc (htilde.trans (by rw [hseq]; rfl)), hlen⟩

theorem Between.run_left (h : Between s) :
    ∃ s', run MicrorlT.microrlInsertChar s [27, 68] = some s' ∧
      s'.cursor = leftCursor s.escapeSeq := by
  obtain ⟨hlen, hcur, hesc, -⟩ := h
  let u : MicrorlT := { s with escape := true }
  have hleft : u.escapeProcess 68 =
      if s.escapeSeq = .bracket then some (u.toLeft, true) else some (u, true) := rfl
  cases hseq : s.escapeSeq with
  | bracket =>
    have hto : u.toLeft.cursor = 0 := by
      rw [MicrorlT.toLeft, if_pos (show s.cursor > 0 by omega)]
      show s.cursor - 1 = 0
      omega
    exact ⟨_, run_escape hesc (hleft.trans (by rw [hseq]; rfl)), hto⟩
  | unset => exact ⟨_, run_escape hesc
    (show u.escapeProcess 68 = some (u, true) from hleft.trans (by rw [hseq]; rfl)), hcur⟩
  | home => exact ⟨_, run_escape hesc
    (show u.escapeProcess 68 = some (u, true) from hleft.trans (by rw [hseq]; rfl)), hcur⟩
  | «end» => exact ⟨_, run_escape hesc
    (show u.escapeProcess 68 = some (u, true) from hleft.trans (by rw [hseq]; rfl)), hcur⟩

/-- No two positions leave the cursor in the same place both times. -/
theorem cursor_ne (p q : EscSeq) (h : p ≠ q) :
    tildeCursor p ≠ tildeCursor q ∨ leftCursor p ≠ leftCursor q := by
  revert h
  cases p <;> cases q <;> decide

/-- **In different positions** two editors come apart: some bytes are a key
to one of them and none to the other. -/
theorem exists_apart {held' : List (List UInt8)} (hs : Sane AnyByte s held)
    (ht : Sane AnyByte t held')
    (hesc : s.escape = false) (hesc' : t.escape = false) (hseq : s.escapeSeq ≠ t.escapeSeq) :
    ∃ bs, ¬ AgreeAfter s t bs := by
  obtain ⟨s₁, hrun, hbetween, hseq₁⟩ := run_between hs hesc
  obtain ⟨t₁, hrun', hbetween', hseq₁'⟩ := run_between ht hesc'
  rw [← hseq₁, ← hseq₁'] at hseq
  rcases cursor_ne _ _ hseq with hne | hne
  · obtain ⟨u, hu, hcur⟩ := hbetween.run_tilde
    obtain ⟨v, hv, hcur'⟩ := hbetween'.run_tilde
    refine ⟨[13, 120, 120, 2] ++ [27, 126], fun h => hne ?_⟩
    have hagree := (agreeAfter_iff hu hv).1 ((agreeAfter_append hrun hrun').1 h)
    rw [← hcur, ← hcur']
    exact hagree.2.2.1
  · obtain ⟨u, hu, hcur⟩ := hbetween.run_left
    obtain ⟨v, hv, hcur'⟩ := hbetween'.run_left
    refine ⟨[13, 120, 120, 2] ++ [27, 68], fun h => hne ?_⟩
    have hagree := (agreeAfter_iff hu hv).1 ((agreeAfter_append hrun hrun').1 h)
    rw [← hcur, ← hcur']
    exact hagree.2.2.1

/-! ## The byte behind ESC -/

/-- A byte behind ESC that does not go on with a sequence ends it where
it was. -/
theorem escapeProcess_done {ch : UInt8} {done : Bool} (hbracket : ch ≠ 91)
    (hdigit : s.escapeSeq = .bracket → ch ≠ 55 ∧ ch ≠ 56)
    (h : s.escapeProcess ch = some (s', done)) : done = true ∧ s'.escapeSeq = s.escapeSeq := by
  -- what a sequence does a key of the switch does as well
  have hkey : ∀ k, (s.processKey k).map (·, true) = some (s', done) →
      done = true ∧ s'.escapeSeq = s.escapeSeq := by
    intro k hk
    obtain ⟨u, hu, heq⟩ := Option.map_eq_some_iff.1 hk
    obtain ⟨rfl, rfl⟩ := Prod.mk.inj heq
    exact ⟨rfl, processKey_escapeSeq hu⟩
  have hstay : some (s, true) = some (s', done) → done = true ∧ s'.escapeSeq = s.escapeSeq := by
    intro hs
    obtain ⟨rfl, rfl⟩ := Prod.mk.inj (Option.some.inj hs)
    exact ⟨rfl, rfl⟩
  have hbind : ∀ x : Option MicrorlT, (x.bind fun u => some (u, true)) = x.map (·, true) := by
    intro x
    cases x <;> rfl
  unfold MicrorlT.escapeProcess at h
  simp only [Option.bind_eq_bind, Option.pure_def, hbind] at h
  rw [if_neg hbracket] at h
  split at h
  · obtain ⟨hhome, hend⟩ := hdigit ‹_›
    rw [if_neg hhome, if_neg hend] at h
    split at h
    · exact hkey 16 h
    split at h
    · exact hkey 14 h
    split at h
    · exact hkey 6 h
    split at h
    · exact hkey 2 h
    · exact hstay h
  split at h
  · split at h
    · exact hkey 1 h
    split at h
    · exact hkey 5 h
    · exact hstay h
  · exact hstay h

/-- The byte behind ESC, where it ends the sequence. -/
theorem run_escape_done {ch : UInt8} (hs : Sane AnyByte s held) (hesc : s.escape = false)
    (hbracket : ch ≠ 91) (hdigit : s.escapeSeq = .bracket → ch ≠ 55 ∧ ch ≠ 56) :
    ∃ s', run MicrorlT.microrlInsertChar s [27, ch] = some s' ∧ Sane AnyByte s' held ∧
      s'.escape = false ∧ s'.escapeSeq = s.escapeSeq := by
  obtain ⟨s', str, done, hproc, heffect⟩ :=
    escapeProcess_effect admits_anyByte (hs.with_escape s.escapeSeq true) ch
  obtain ⟨rfl, hseq⟩ := escapeProcess_done (s := { s with escape := true }) hbracket hdigit hproc
  exact ⟨_, run_escape hesc hproc, heffect.leaves.sane.with_escape s'.escapeSeq false, rfl, hseq⟩

/-- A digit behind ESC, which one of them takes for a part of the
sequence before. The next byte is lost on it. -/
theorem exists_apart_digit (ch : UInt8) {held' : List (List UInt8)} (ht : Sane AnyByte t held')
    (hagree : Agree s t) (hesc : s.escape = false) (hesc' : t.escape = false)
    (hseq : s.escapeSeq = .bracket) (hseq' : t.escapeSeq ≠ .bracket) (hch : ch = 55 ∨ ch = 56) :
    ∃ bs, ¬ AgreeAfter s t ([27, ch] ++ bs) := by
  obtain ⟨-, hlen, -, -⟩ := hagree
  have hbracket : ch ≠ 91 := by rcases hch with rfl | rfl <;> decide
  have htilde : ch ≠ 126 := by rcases hch with rfl | rfl <;> decide
  -- `s` goes on with the sequence, and ends it with the byte behind
  have hopen : ∃ p, p ≠ EscSeq.bracket ∧ run MicrorlT.microrlInsertChar s [27, ch] =
      some { s with escape := true, escapeSeq := p } := by
    have hesc27 : s.microrlInsertChar 27 = some { s with escape := true } :=
      microrlInsertChar_of_closed hesc 27
    simp only [run, hesc27, Option.bind_some]
    rcases hch with rfl | rfl
    · exact ⟨.home, by decide, by simp [MicrorlT.microrlInsertChar, MicrorlT.escapeProcess, hseq]⟩
    · exact ⟨.end, by decide, by simp [MicrorlT.microrlInsertChar, MicrorlT.escapeProcess, hseq]⟩
  obtain ⟨p, hp, hrun⟩ := hopen
  have hlost : ∀ k : UInt8, k ≠ 91 → k ≠ 126 →
      run MicrorlT.microrlInsertChar { s with escape := true, escapeSeq := p } [k] =
        some { s with escape := false, escapeSeq := p } := by
    intro k hk hk'
    simp [run, MicrorlT.microrlInsertChar, MicrorlT.escapeProcess, hk, hk', hp]
  -- `t` has ended the sequence, and takes the byte for a key
  have hclosed : run MicrorlT.microrlInsertChar t [27, ch] = some { t with escape := false } := by
    have hproc : MicrorlT.escapeProcess { t with escape := true } ch =
        some ({ t with escape := true }, true) := by
      simp [MicrorlT.escapeProcess, hbracket, htilde, hseq']
    have hend := run_escape hesc' hproc
    exact hend
  have hsane : Sane AnyByte { t with escape := false } held' := ht.with_escape t.escapeSeq false
  by_cases hempty : t.cmdlen = 0
  · obtain ⟨u, hx, -, hlen', -⟩ := processKey_x hsane (show t.cmdlen + 1 < 101 by omega)
    have hkey : run MicrorlT.microrlInsertChar { t with escape := false } [120] = some u := by
      rw [run, microrlInsertChar_of_closed rfl, hx]
      rfl
    refine ⟨[120], fun h => ?_⟩
    have hsame : s.cmdlen = u.cmdlen :=
      ((agreeAfter_iff (hlost 120 (by decide) (by decide)) hkey).1
        ((agreeAfter_append hrun hclosed).1 h)).2.1
    rw [hlen'] at hsame
    have : s.cmdlen = t.cmdlen + 1 := hsame
    omega
  · obtain ⟨u, -, henter, -, -, hlen', -⟩ := newLineHandler_eq admits_anyByte hsane
    have hkey : run MicrorlT.microrlInsertChar { t with escape := false } [13] = some u := by
      rw [run, microrlInsertChar_enter rfl, henter]
      rfl
    refine ⟨[13], fun h => hempty ?_⟩
    have hsame : s.cmdlen = u.cmdlen :=
      ((agreeAfter_iff (hlost 13 (by decide) (by decide)) hkey).1
        ((agreeAfter_append hrun hclosed).1 h)).2.1
    rw [← hlen, hsame, hlen']

/-- `[` behind ESC sets the position, whatever it was before. -/
theorem run_bracket (hesc : s.escape = false) : run MicrorlT.microrlInsertChar s [27, 91] =
    some { s with escape := true, escapeSeq := .bracket } := by
  rw [run, microrlInsertChar_of_closed hesc]
  rfl

/-- Where the positions differ and the byte behind ESC does not set one,
two editors come apart behind it. -/
theorem exists_apart_escape {ch : UInt8} {held' : List (List UInt8)} (hs : Sane AnyByte s held)
    (ht : Sane AnyByte t held') (hagree : Agree s t) (hesc : s.escape = false)
    (hesc' : t.escape = false) (hseq : s.escapeSeq ≠ t.escapeSeq) (hch : ch ≠ 91) :
    ∃ bs, ¬ AgreeAfter s t ([27, ch] ++ bs) := by
  by_cases hdigit : s.escapeSeq = .bracket → ch ≠ 55 ∧ ch ≠ 56
  · by_cases hdigit' : t.escapeSeq = .bracket → ch ≠ 55 ∧ ch ≠ 56
    · -- both have ended the sequence, each where it was
      obtain ⟨s₁, hrun, hs₁, hesc₁, hseq₁⟩ := run_escape_done hs hesc hch hdigit
      obtain ⟨t₁, hrun', ht₁, hesc₁', hseq₁'⟩ := run_escape_done ht hesc' hch hdigit'
      rw [← hseq₁, ← hseq₁'] at hseq
      obtain ⟨bs, hbs⟩ := exists_apart hs₁ ht₁ hesc₁ hesc₁' hseq
      exact ⟨bs, fun h => hbs ((agreeAfter_append hrun hrun').1 h)⟩
    · obtain ⟨hbracket, hdigits⟩ := Classical.not_imp.1 hdigit'
      obtain ⟨bs, hbs⟩ := exists_apart_digit ch hs hagree.symm hesc' hesc hbracket
        (fun h => hseq (h.trans hbracket.symm)) (by tauto)
      exact ⟨bs, fun h => hbs h.symm⟩
  · obtain ⟨hbracket, hdigits⟩ := Classical.not_imp.1 hdigit
    exact exists_apart_digit ch ht hagree hesc hesc' hbracket
      (fun h => hseq (hbracket.trans h.symm)) (by tauto)

/-- **How far an escape sequence is decoded afresh.** Two states of the
editor that agree, both without an open sequence, agree behind ESC; and
they agree behind ESC, a byte and whatever follows exactly when the last
sequences have left the same position, or the byte is `[`. -/
theorem escape_afresh_iff (commands : Option (List (List UInt8))) (echo : Bool)
    (earlier earlier' : List UInt8)
    (hs : run MicrorlT.microrlInsertChar (.start commands echo) earlier = some s)
    (ht : run MicrorlT.microrlInsertChar (.start commands echo) earlier' = some t)
    (hagree : Agree s t) (hesc : s.escape = false) (hesc' : t.escape = false) :
    AgreeAfter s t [27] ∧ ∀ ch, (∀ bs, AgreeAfter s t (27 :: ch :: bs)) ↔
      s.escapeSeq = t.escapeSeq ∨ ch = 91 := by
  have hstart : Sane AnyByte (.start commands echo) [] :=
    (sane_microrlInit admits_anyByte).with_settings _ (show 4 < 10000 by omega) echo true commands
  obtain ⟨held, hsane, hset⟩ := sane_of_run admits_anyByte hstart (namesAdmitted_anyByte _) hs
  obtain ⟨held', hsane', hset'⟩ := sane_of_run admits_anyByte hstart (namesAdmitted_anyByte _) ht
  have hsettings : s.settings = t.settings := hset.trans hset'.symm
  have hopen : ∀ {u : MicrorlT}, u.escape = false →
      run MicrorlT.microrlInsertChar u [27] = some { u with escape := true } := by
    intro u hu
    rw [run, microrlInsertChar_of_closed hu]
    rfl
  refine ⟨(agreeAfter_iff (hopen hesc) (hopen hesc')).2 hagree, fun ch => ⟨fun h => ?_, ?_⟩⟩
  · by_contra hno
    obtain ⟨hseq, hch⟩ := not_or.1 hno
    obtain ⟨bs, hbs⟩ := exists_apart_escape hsane hsane' hagree hesc hesc' hseq hch
    exact hbs (h bs)
  · rintro (hseq | rfl) bs
    · exact hagree.agreeAfter hsettings (hesc.trans hesc'.symm) hseq _
    · -- `[` sets the position
      refine (agreeAfter_append (run_bracket hesc) (run_bracket hesc')).2 ?_
      exact Agree.agreeAfter (s := { s with escape := true, escapeSeq := .bracket })
        (t := { t with escape := true, escapeSeq := .bracket }) hagree hsettings rfl rfl bs

/-- A left and a right arrow leave the line and the cursor as they were,
but not the position. -/
theorem run_arrows (hesc : s.escape = false) (hpos : 0 < s.cursor) (hle : s.cursor ≤ s.cmdlen) :
    ∃ t, run MicrorlT.microrlInsertChar s [27, 91, 68, 27, 91, 67] = some t ∧ Agree s t ∧
      t.escape = false ∧ t.escapeSeq = .bracket := by
  have harrow : ∀ {u v : MicrorlT} {ch : UInt8}, u.escape = false →
      MicrorlT.escapeProcess { u with escape := true, escapeSeq := .bracket } ch = some (v, true) →
      run MicrorlT.microrlInsertChar u [27, 91, ch] = some { v with escape := false } := by
    intro u v ch hu hproc
    have hend : MicrorlT.microrlInsertChar { u with escape := true, escapeSeq := .bracket } ch =
        some { v with escape := false } := by
      unfold MicrorlT.microrlInsertChar
      rw [if_pos rfl, hproc]
      rfl
    exact run_append.2 ⟨_, run_bracket hu, run_cons.2 ⟨_, hend, rfl⟩⟩
  let u : MicrorlT := { s with escape := true, escapeSeq := .bracket }
  have hto : u.toLeft = { u.terminalMoveCursor (-1) with cursor := s.cursor - 1 } := if_pos hpos
  rw [terminalMoveCursor_eq] at hto
  have hleft : run MicrorlT.microrlInsertChar s [27, 91, 68] =
      some { u.print (moveSeq (-1)) with cursor := s.cursor - 1, escape := false } :=
    harrow hesc (show u.escapeProcess 68 = _ from congrArg (fun v => some (v, true)) hto)
  let w : MicrorlT :=
    { u.print (moveSeq (-1)) with cursor := s.cursor - 1, escape := true, escapeSeq := .bracket }
  have hback : w.toRight = { w.terminalMoveCursor 1 with cursor := s.cursor - 1 + 1 } :=
    if_pos (show s.cursor - 1 < s.cmdlen by omega)
  rw [terminalMoveCursor_eq, Nat.sub_add_cancel hpos] at hback
  have hright := harrow
    (u := { u.print (moveSeq (-1)) with cursor := s.cursor - 1, escape := false }) rfl
    (show w.escapeProcess 67 = _ from congrArg (fun v => some (v, true)) hback)
  exact ⟨_, run_append.2 ⟨_, hleft, hright⟩, ⟨rfl, rfl, rfl, rfl⟩, rfl, rfl⟩

/-- "ab", once alone and once with the two arrows behind it. -/
theorem ab_arrows : ∃ s t,
    run MicrorlT.microrlInsertChar (.start none false) (ascii "ab") = some s ∧
    run MicrorlT.microrlInsertChar (.start none false)
      (ascii "ab" ++ [27, 91, 68, 27, 91, 67]) = some t ∧ Agree s t ∧ s.escape = false ∧
      t.escape = false ∧ s.cursor = 2 ∧ s.escapeSeq = .unset ∧ t.escapeSeq = .bracket := by
  have hline : (run MicrorlT.microrlInsertChar (.start none false) (ascii "ab")).map
      (fun s => (s.escape, s.cursor, s.cmdlen, s.escapeSeq)) = some (false, 2, 2, .unset) := by
    decide +kernel
  obtain ⟨s, hs, hfields⟩ := Option.map_eq_some_iff.1 hline
  simp only [Prod.mk.injEq] at hfields
  obtain ⟨hesc, hcur, hlen, hseq⟩ := hfields
  obtain ⟨t, ht, hagree, hesc', hseq'⟩ := run_arrows hesc (by omega) (by omega)
  exact ⟨s, t, hs, run_append.2 ⟨s, hs, ht⟩, hagree, hesc, hesc', hcur, hseq, hseq'⟩

/-- Behind ESC `[` two editors agree whose positions differ, whatever
follows. -/
theorem escape_afresh_iff_arrows :
    ∃ s t, run MicrorlT.microrlInsertChar (.start none false) (ascii "ab") = some s ∧
      run MicrorlT.microrlInsertChar (.start none false)
        (ascii "ab" ++ [27, 91, 68, 27, 91, 67]) = some t ∧
      s.escapeSeq ≠ t.escapeSeq ∧ ∀ bs, AgreeAfter s t (27 :: 91 :: bs) := by
  obtain ⟨s, t, hs, ht, hagree, hesc, hesc', -, hseq, hseq'⟩ := ab_arrows
  refine ⟨s, t, hs, ht, by rw [hseq, hseq']; decide, ?_⟩
  exact ((escape_afresh_iff none false _ _ hs ht hagree hesc hesc').2 91).2 (Or.inr rfl)

/-- **A left arrow without its bracket.** Behind the two arrows ESC `D`
moves the cursor, and without them it does not, though the line, the
cursor and the history are the same. -/
theorem escape_not_afresh :
    ∃ s t, run MicrorlT.microrlInsertChar (.start none false) (ascii "ab") = some s ∧
      run MicrorlT.microrlInsertChar (.start none false)
        (ascii "ab" ++ [27, 91, 68, 27, 91, 67]) = some t ∧
      Agree s t ∧ s.escape = false ∧ t.escape = false ∧ ¬ AgreeAfter s t [27, 68] := by
  obtain ⟨s, t, hs, ht, hagree, hesc, hesc', hcur, hseq, hseq'⟩ := ab_arrows
  refine ⟨s, t, hs, ht, hagree, hesc, hesc', fun h => ?_⟩
  have hstay : run MicrorlT.microrlInsertChar s [27, 68] = some { s with escape := false } := by
    have hproc : MicrorlT.escapeProcess { s with escape := true } 68 =
        some ({ s with escape := true }, true) := by
      simp [MicrorlT.escapeProcess, hseq]
    have hend := run_escape hesc hproc
    exact hend
  let u : MicrorlT := { t with escape := true }
  have hmove : run MicrorlT.microrlInsertChar t [27, 68] =
      some { u.toLeft with escape := false } := by
    have hproc : u.escapeProcess 68 = some (u.toLeft, true) := by
      simp [u, MicrorlT.escapeProcess, hseq']
    exact run_escape hesc' hproc
  have hto : u.toLeft.cursor = u.cursor - 1 := by
    rw [MicrorlT.toLeft, if_pos (show t.cursor > 0 by rw [← hagree.2.2.1, hcur]; decide)]
  have hsame : s.cursor = u.toLeft.cursor := ((agreeAfter_iff hstay hmove).1 h).2.2.1
  rw [hto, hcur, show u.cursor = t.cursor from rfl, ← hagree.2.2.1, hcur] at hsame
  omega

end Microrl

end SlipBoard
