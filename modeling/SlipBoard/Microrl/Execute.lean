import SlipBoard.Common.Transition
import SlipBoard.Microrl.Completion
/-!
# Line editor — what Enter executes

`split` cuts the line by its length, and the command reads the tokens as
strings. The two agree for every word that a zero follows inside the
line, so all hangs on the last one, and on the cell behind the line.
Insertion, backspace and the history keep a zero there; ^K shortens the
line and stores none.
-/

namespace SlipBoard

namespace Microrl

open Transition

variable {s s' : MicrorlT} {held : List (List UInt8)}

/-- Lines that may hold any byte. -/
abbrev AnyByte : UInt8 → Prop := fun _ => True

theorem admits_anyByte : Admits AnyByte := ⟨trivial, fun _ _ _ => trivial⟩

theorem namesAdmitted_anyByte (s : MicrorlT) : NamesAdmitted AnyByte s :=
  fun _ _ _ _ _ _ => trivial

/-- The words of the logical line, which is split at the zeros it holds for
spaces. -/
def MicrorlT.words (s : MicrorlT) : List (List UInt8) := s.cmdline.words s.cmdlen

/-- **Enter executes the line**: nothing for a line without words, and
otherwise one call whose arguments, read as strings, are its words. -/
def RunsLine (s : MicrorlT) : Prop :=
  ∃ s', s.microrlInsertChar 13 = some s' ∧ (s.words = [] → s'.calls = s.calls) ∧
    (s.words ≠ [] → ∃ c, s'.calls = s.calls ++ [c] ∧ c.argc = s.words.length ∧
      c.argv.map c.cmdline.str = s.words.map some)

/-- The line is empty, ends in a zero, or has one behind it. -/
def Ended (s : MicrorlT) : Prop :=
  s.cmdlen = 0 ∨ s.cmdline.byte (s.cmdlen - 1) = 0 ∨ s.cmdline.byte s.cmdlen = 0

instance (s : MicrorlT) : Decidable (Ended s) := inferInstanceAs (Decidable (_ ∨ _ ∨ _))

/-- The line is ended, and Enter is not taken for a part of an escape
sequence, unless there is nothing to execute. -/
def Ready (s : MicrorlT) : Prop := (s.escape = false ∨ s.words = []) ∧ Ended s

instance (s : MicrorlT) : Decidable (Ready s) :=
  inferInstanceAs (Decidable ((s.escape = false ∨ s.words = []) ∧ Ended s))

theorem str_starts (hs : Sane AnyByte s held) :
    (s.cmdline.starts s.cmdlen).map s.cmdline.str =
      ((s.cmdline.starts s.cmdlen).map s.cmdline.cstr).map some := by
  rw [List.map_map]
  exact List.map_congr_left (str_of_mem_starts hs.guard hs.cmdlen_le)

/-- The tokens are the words exactly when the line is ended. -/
theorem cstr_starts_iff_ended (hs : Sane AnyByte s held) :
    (s.cmdline.starts s.cmdlen).map s.cmdline.cstr = s.words ↔ Ended s :=
  Block.cstr_starts_iff (Nat.lt_succ_of_le hs.cmdlen_le)

theorem length_words : s.words.length = (s.cmdline.starts s.cmdlen).length := List.length_map ..

/-- A line without words is ended: there is no last word that a NUL could be
missing behind. -/
theorem ended_of_words_eq_nil (hs : Sane AnyByte s held) (hnil : s.words = []) : Ended s := by
  have hstarts : s.cmdline.starts s.cmdlen = [] := List.map_eq_nil_iff.1 hnil
  rw [← cstr_starts_iff_ended hs, hnil, hstarts]
  rfl

theorem executed_eq_nil (hnil : s.words = []) : executed s = [] := by
  refine if_neg fun h => ?_
  rw [← length_words, hnil] at h
  exact absurd h.1 (Nat.lt_irrefl 0)

/-- The one call that Enter makes of a line with words, with their number
and their starts. -/
theorem executed_eq_singleton (hexec : s.execute = true) (hne : s.words ≠ [])
    (hwords : s.words.length < commandTokenNmb) :
    executed s = [⟨s.words.length, s.cmdline.starts s.cmdlen, s.cmdline⟩] := by
  have hpos := List.length_pos_iff.2 hne
  rw [length_words] at hpos hwords ⊢
  exact if_pos ⟨hpos, hwords, hexec⟩

/-- Inside an escape sequence Enter only ends the sequence, and the line
stays. -/
theorem microrlInsertChar_enter_escape (hesc : s.escape = true) :
    s.microrlInsertChar 13 = some { s with escape := false } := by
  have hproc : s.escapeProcess 13 = some (s, true) := by
    simp [MicrorlT.escapeProcess]
  unfold MicrorlT.microrlInsertChar
  rw [hesc, if_pos rfl, hproc]
  rfl

/-- **Enter executes the line as edited** exactly when the editor is ready
for it: the words are read up to a NUL, and the last one needs it behind it. -/
theorem runsLine_iff (hs : Sane AnyByte s held) (hexec : s.execute = true)
    (hwords : s.words.length < commandTokenNmb) : RunsLine s ↔ Ready s := by
  by_cases hnil : s.words = []
  · -- without a word no call is due, and none is made
    refine iff_of_true ?_ ⟨Or.inr hnil, ended_of_words_eq_nil hs hnil⟩
    cases hesc : s.escape with
    | true =>
      exact ⟨_, microrlInsertChar_enter_escape hesc, fun _ => rfl, fun hne => absurd hnil hne⟩
    | false =>
      obtain ⟨s', -, hkey, -, -, -, -, hcalls⟩ := newLineHandler_eq admits_anyByte hs
      rw [← microrlInsertChar_enter hesc] at hkey
      refine ⟨s', hkey, fun _ => ?_, fun hne => absurd hnil hne⟩
      rw [hcalls, executed_eq_nil hnil, List.append_nil]
  have hone := executed_eq_singleton hexec hnil hwords
  cases hesc : s.escape with
  | true =>
    -- the call does not come
    refine iff_of_false ?_ (fun h => by simpa [hesc, hnil] using h.1)
    rintro ⟨t, ht, -, hcall⟩
    obtain ⟨c, hc, -⟩ := hcall hnil
    obtain rfl := Option.some.inj ((microrlInsertChar_enter_escape hesc).symm.trans ht)
    simp at hc
  | false =>
    obtain ⟨s', -, hkey, -, -, -, -, hcalls⟩ := newLineHandler_eq admits_anyByte hs
    rw [← microrlInsertChar_enter hesc] at hkey
    -- the call carries the starts; what they are read as is left
    constructor
    · rintro ⟨t, ht, -, hcall⟩
      obtain ⟨c, hc, -, hstr⟩ := hcall hnil
      obtain rfl := Option.some.inj (hkey.symm.trans ht)
      rw [hcalls, hone, List.append_cancel_left_eq] at hc
      rw [← (List.cons.inj hc).1, str_starts hs] at hstr
      refine ⟨Or.inl hesc, (cstr_starts_iff_ended hs).1 ?_⟩
      exact List.map_injective_iff.2 (Option.some_injective _) hstr
    · rintro ⟨-, hended⟩
      refine ⟨s', hkey, fun h => absurd h hnil, fun _ => ⟨_, hcalls.trans (by rw [hone]), rfl, ?_⟩⟩
      rw [str_starts hs, (cstr_starts_iff_ended hs).2 hended]

/-! ## Runs -/

/-- The editor is in range, whatever its history holds, and has an `execute`
to call. -/
def InUse (s : MicrorlT) : Prop := (∃ held, Sane AnyByte s held) ∧ s.execute = true

theorem InUse.of_settings (hexec : s.execute = true) (hs : Sane AnyByte s' held)
    (h : s'.settings = s.settings) : InUse s' :=
  ⟨⟨held, hs⟩, (congrArg (fun x => x.2.2.2.2) h).trans hexec⟩

/-- **What Enter executes.** Behind any bytes after which the editor is
still answering, and then any bytes without a TAB, every line of fewer
than ten words is executed as it was edited exactly when the editor is
ready. -/
theorem execute_iff (commands : Option (List (List UInt8))) (echo : Bool) (earlier bs : List UInt8)
    {s₀ : MicrorlT} (hrun : run MicrorlT.microrlInsertChar (.start commands echo) earlier = some s₀)
    (htab : 9 ∉ bs) :
    ∃ s, run MicrorlT.microrlInsertChar s₀ bs = some s ∧
      (s.words.length < commandTokenNmb → (RunsLine s ↔ Ready s)) := by
  have hbegin : InUse s₀ := by
    have hstart : Sane AnyByte (.start commands echo) [] :=
      (sane_microrlInit admits_anyByte).with_settings _ (show 4 < 10000 by omega) echo true commands
    obtain ⟨held, hs₀, hset⟩ := sane_of_run admits_anyByte hstart (namesAdmitted_anyByte _) hrun
    exact .of_settings rfl hs₀ hset
  have hbytes : Along MicrorlT.microrlInsertChar (fun _ ch => ch ≠ 9) s₀ bs :=
    along_of_forall (fun ch hch => ne_of_mem_of_not_mem hch htab) s₀
  have hstep : ∀ s ch, InUse s → ch ≠ 9 → ∃ t, s.microrlInsertChar ch = some t ∧ InUse t := by
    rintro s ch ⟨⟨held, hs⟩, hexec⟩ hch
    obtain ⟨t, held', hkey, ht, hset⟩ := microrlInsertChar_sane admits_anyByte hs fun _ => hch
    exact ⟨t, hkey, .of_settings hexec ht hset⟩
  obtain ⟨s, hs, ⟨⟨held, hsane⟩, hexec⟩⟩ := run_of_invariant hstep hbegin hbytes
  exact ⟨s, hs, fun hwords => runsLine_iff hsane hexec hwords⟩

/-- "lp", a step back and "e" in between: Enter executes "lep". -/
theorem execute_iff_inserted :
    ∃ s, run MicrorlT.microrlInsertChar (.start none false) (ascii "lp" ++ [2] ++ ascii "e") =
      some s ∧ s.words = [ascii "lep"] ∧ RunsLine s := by
  have hline : (run MicrorlT.microrlInsertChar (.start none false) (ascii "lp" ++ [2] ++ ascii "e")).map
      (fun s => (s.words, decide (Ready s))) = some ([ascii "lep"], true) := by
    decide +kernel
  obtain ⟨s, hrun, hiff⟩ := execute_iff none false [] (ascii "lp" ++ [2] ++ ascii "e")
    (run_nil _) (by decide +kernel)
  rw [hrun, Option.map_some, Option.some.injEq, Prod.mk.injEq] at hline
  exact ⟨s, hrun, hline.1, (hiff (by rw [hline.1]; decide)).2 (of_decide_eq_true hline.2)⟩

/-- **A tail cut by ^K is executed.** "abcdef", the cursor behind "abc"
and ^K leave the line "abc", and Enter calls the command "abcdef". -/
theorem cut_tail_executed :
    ∃ s, run MicrorlT.microrlInsertChar (.start none false)
        (ascii "abcdef" ++ [1, 6, 6, 6, 11]) = some s ∧ s.words = [ascii "abc"] ∧
      (s.microrlInsertChar 13).map (fun s' => s'.calls.map fun c => c.argv.map c.cmdline.str) =
        some [[some (ascii "abcdef")]] ∧ ¬ RunsLine s := by
  have hline : (run MicrorlT.microrlInsertChar (.start none false)
      (ascii "abcdef" ++ [1, 6, 6, 6, 11])).map (fun s => (s.words, s.calls.length)) =
      some ([ascii "abc"], 0) := by
    decide +kernel
  have henter : (run MicrorlT.microrlInsertChar (.start none false)
      (ascii "abcdef" ++ [1, 6, 6, 6, 11])).map (fun s => (s.microrlInsertChar 13).map fun s' =>
        s'.calls.map fun c => c.argv.map c.cmdline.str) = some (some [[some (ascii "abcdef")]]) := by
    decide +kernel
  obtain ⟨s, hrun, hline⟩ := Option.map_eq_some_iff.1 hline
  obtain ⟨hwords, hcalls⟩ := Prod.mk.inj hline
  rw [List.length_eq_zero_iff] at hcalls
  rw [hrun, Option.map_some, Option.some.injEq] at henter
  refine ⟨s, hrun, hwords, henter, ?_⟩
  rintro ⟨s', hkey, -, hcall⟩
  obtain ⟨c, hc, -, hstr⟩ := hcall (by rw [hwords]; simp)
  rw [hcalls, List.nil_append] at hc
  rw [hkey, Option.map_some, hc, List.map_singleton, hstr, hwords] at henter
  exact absurd henter (by decide)

end Microrl

end SlipBoard
