import SlipBoard.Microrl.Editing
import SlipBoard.Microrl.Tokens
/-!
# Line editor — one key

Every key that is neither Enter nor TAB answers with one of the effects
of `Effect`: what it makes of the line and what it prints, the editor in
range and its settings as they were (`microrlInsertChar_effect`). Enter
saves the line, calls `execute` when `split` has found one to nine
words, and leaves an empty line (`newLineHandler_eq`).
-/

namespace SlipBoard

namespace Microrl

variable {Q : UInt8 → Prop} {s s' : MicrorlT} {held : List (List UInt8)} {ch : UInt8}

/-! ## The keys that edit -/

/-- ^U leaves what stood behind the cursor, and prints it from the
prompt on. -/
theorem keyNak_eq (hQ : Admits Q) (hs : Sane Q s held) :
    ∃ s₁, Leaves Q s (List.replicate s.cursor backspaceSeq).flatten s₁ held ∧ s₁.cursor = 0 ∧
      s.keyNak = some (s₁.print (lineSeq s₁ 0 0)) := by
  have hcur := hs.cursor_le
  have hle := hs.cmdlen_le
  obtain ⟨s₁, hkill, hleaves, hcursor, -⟩ :=
    killToBegin_eq hQ hs (show s.cursor < commandLineLen by rw [commandLineLen]; omega)
  refine ⟨s₁, hleaves, hcursor, ?_⟩
  simp only [MicrorlT.keyNak, hkill, Option.bind_eq_bind, Option.bind_some, hcursor]
  exact terminalPrintLine_eq hleaves.sane (Nat.zero_le _) 0

theorem keyDel_eq (hs : Sane Q s held) (hQ : Admits Q) (hpos : 0 < s.cursor) :
    s.keyDel = some (((erased s).print backspaceSeq).print
      (lineSeq (erased s) (s.cursor - 1) (s.cursor - 1))) := by
  have hcur := hs.cursor_le
  have hsane := (Leaves.erased hQ hs hpos).sane
  simp only [MicrorlT.keyDel, microrlBackspace_eq hs hpos, Option.bind_eq_bind, Option.bind_some]
  exact terminalPrintLine_eq hsane (by show s.cursor - 1 ≤ s.cmdlen - 1; omega) _

theorem keyDel_zero (hs : Sane Q s held) (hzero : s.cursor = 0) :
    s.keyDel = some (s.print (lineSeq s 0 0)) := by
  simp only [MicrorlT.keyDel, microrlBackspace_zero hzero, Option.bind_eq_bind, Option.bind_some,
    hzero]
  exact terminalPrintLine_eq hs (Nat.zero_le _) 0

theorem keyDc2_eq (hs : Sane Q s held) :
    s.keyDc2 = some (s.print (endl ++ s.promptStr ++ resetSeq s.promptLen ++
      lineSeq s 0 s.cursor)) := by
  simp only [MicrorlT.keyDc2, MicrorlT.terminalNewline, MicrorlT.printPrompt, MicrorlT.print_print]
  rw [terminalResetCursor_eq (by exact hs.prompt_lt)]
  simp only [Option.bind_eq_bind, Option.bind_some, MicrorlT.print_cursor]
  rw [terminalPrintLine_eq ((hs.print _).print _) (Nat.zero_le _)]
  simp only [MicrorlT.print_print, MicrorlT.print_promptLen, MicrorlT.print_promptStr,
    List.append_assoc]
  rfl

/-- A character that has no room, or that the editor ignores. -/
theorem keyDefault_ignored (h : ((ch = 32 ∧ s.cmdlen = 0) ∨ ch ≤ 31) ∨ ¬ s.cmdlen + 1 < 101) :
    s.keyDefault ch = some s := by
  unfold MicrorlT.keyDefault
  by_cases hskip : (ch = 32 ∧ s.cmdlen = 0) ∨ ch ≤ 31
  · rw [if_pos hskip]
  · have hfull : ¬ s.cmdlen + [ch].length < 101 := h.resolve_left hskip
    rw [if_neg hskip, microrlInsertText_full hfull]
    rfl

/-- A character is inserted, and the line printed from it on, or from
behind it where the terminal has shown it. -/
theorem keyDefault_eq (hQ : Admits Q) (hs : Sane Q s held)
    (hkey : ¬ ((ch = 32 ∧ s.cmdlen = 0) ∨ ch ≤ 31)) (hdel : ch ≠ 127) (hroom : s.cmdlen + 1 < 101) :
    Sane Q (inserted s [ch]) held ∧
      s.keyDefault ch = some ((inserted s [ch]).print (lineSeq (inserted s [ch])
        (if s.terminalHasEcho then s.cursor + 1 else s.cursor) (s.cursor + 1))) := by
  have hcur := hs.cursor_le
  have hsane : Sane Q (inserted s [ch]) held := by
    refine hs.inserted hQ hroom fun c hc => ?_
    rw [List.mem_singleton.1 hc, zeroSpace]
    split
    · exact hQ.zero
    · exact hQ.key ch (UInt8.not_le.1 fun h => hkey (Or.inr h)) hdel
  refine ⟨hsane, ?_⟩
  have hdiff : diff (inserted s [ch]).cursor 1 = some s.cursor := diff_of_le (Nat.le_add_left 1 _)
  unfold MicrorlT.keyDefault
  rw [if_neg hkey, microrlInsertText_eq hs (show s.cmdlen + [ch].length < 101 from hroom)]
  simp only [Option.bind_eq_bind, Option.bind_some, if_true, hdiff]
  cases hecho : s.terminalHasEcho with
  | false =>
    have hecho' : (inserted s [ch]).terminalHasEcho = false := hecho
    simp only [hecho', Bool.not_false, if_true, Bool.false_eq_true, if_false]
    exact terminalPrintLine_eq hsane (by show s.cursor ≤ s.cmdlen + 1; omega) _
  | true =>
    have hecho' : (inserted s [ch]).terminalHasEcho = true := hecho
    simp only [hecho', Bool.not_true, Bool.false_eq_true, if_false, if_true]
    exact terminalPrintLine_eq hsane (by show s.cursor + 1 ≤ s.cmdlen + 1; omega) _

/-! ## What a key does to line and screen -/

/-- What is printed in front of the line: steps back over `n` characters,
a way back to the prompt, or a new prompt below a list of names. -/
inductive Lead (s : MicrorlT) : ℕ → List UInt8 → Prop
  | back (n : ℕ) (h : n ≤ s.cursor) :
      Lead s (s.cursor - n) (List.replicate n backspaceSeq).flatten
  | reset : Lead s 0 (resetSeq s.promptLen)
  | prompt : Lead s 0 (endl ++ s.promptStr ++ resetSeq s.promptLen)
  | names (names : List (List UInt8)) (h : ∃ keyworld ∈ s.getCompletion, names ⊆ keyworld) :
      Lead s 0 (endl ++ (names.flatMap fun name => name ++ [32]) ++ endl ++ s.promptStr ++
        resetSeq s.promptLen)

/-- **The effects of the keys.** A key changes nothing to be seen, moves
the cursor, cuts the line, or changes the line behind some position and
prints it from there; where the terminal has an echo, an inserted
character is not printed. -/
inductive Effect (Q : UInt8 → Prop) (held : List (List UInt8)) (s : MicrorlT)
    (str : List UInt8) (s' : MicrorlT) : Prop
  | stay : Leaves Q s str s' held → str = [] → s'.line = s.line → s'.cursor = s.cursor →
      Effect Q held s str s'
  | move : Leaves Q s str s' held → str = moveSeq ((s'.cursor : ℤ) - s.cursor) →
      s'.line = s.line → Effect Q held s str s'
  | home : Leaves Q s str s' held → str = resetSeq s.promptLen → s'.line = s.line →
      s'.cursor = 0 → Effect Q held s str s'
  | cut : Leaves Q s str s' held → str = [27, 91, 75] → s'.line = s.line.take s.cursor →
      s'.cursor = s.cursor → Effect Q held s str s'
  | tail {s₁ : MicrorlT} {pos : ℕ} {lead : List UInt8} : Lead s pos lead →
      Leaves Q s lead s₁ held → pos ≤ s₁.cmdlen → s₁.line.take pos = s.line.take pos →
      str = lead ++ lineSeq s₁ pos s₁.cursor → s' = s₁.print (lineSeq s₁ pos s₁.cursor) →
      Effect Q held s str s'
  | echoed : Leaves Q s str s' held → s.terminalHasEcho = true → Effect Q held s str s'

variable {str : List UInt8}

/-- Whatever a key does, the editor stays in range. -/
theorem Effect.leaves (h : Effect Q held s str s') : Leaves Q s str s' held := by
  cases h with
  | stay h _ _ _ => exact h
  | move h _ _ => exact h
  | home h _ _ _ => exact h
  | cut h _ _ _ => exact h
  | tail _ h _ _ hstr hs' =>
    rw [hstr, hs']
    exact h.print _
  | echoed h _ => exact h

theorem Leaves.with_escape (h : Leaves Q s str s' held) (seq : EscSeq) (escape : Bool) :
    Leaves Q s str { s' with escapeSeq := seq, escape := escape } held :=
  ⟨h.sane.with_escape seq escape, h.settings, h.out⟩

/-- The state of the escape sequence has no part in an effect. -/
theorem Effect.with_escape (h : Effect Q held s str s') (seq : EscSeq) (escape : Bool) :
    Effect Q held s str { s' with escapeSeq := seq, escape := escape } := by
  cases h with
  | stay h hstr hline hcur => exact .stay (h.with_escape seq escape) hstr hline hcur
  | move h hstr hline => exact .move (h.with_escape seq escape) hstr hline
  | home h hstr hline hcur => exact .home (h.with_escape seq escape) hstr hline hcur
  | cut h hstr hline hcur => exact .cut (h.with_escape seq escape) hstr hline hcur
  | tail hlead h hpos hline hstr hs' =>
    exact .tail hlead (h.with_escape seq escape) hpos hline hstr (by rw [hs']; rfl)
  | echoed h hecho => exact .echoed (h.with_escape seq escape) hecho

theorem Sane.stay (hs : Sane Q s held) : Effect Q held s [] s := .stay hs.leaves rfl rfl rfl

/-- The line printed from `pos` on, in the state it is printed in. -/
theorem Lead.effect {s₁ : MicrorlT} {pos : ℕ} {lead : List UInt8} (hlead : Lead s pos lead)
    (h : Leaves Q s lead s₁ held) (hpos : pos ≤ s₁.cmdlen)
    (hline : s₁.line.take pos = s.line.take pos) :
    Effect Q held s (lead ++ lineSeq s₁ pos s₁.cursor)
      (s₁.print (lineSeq s₁ pos s₁.cursor)) :=
  .tail hlead h hpos hline rfl rfl

/-! ## The keys -/

theorem toEnd_effect (hs : Sane Q s held) : ∃ str, Effect Q held s str s.toEnd := by
  rw [MicrorlT.toEnd, terminalMoveCursor_eq]
  exact ⟨_, .move ⟨(hs.print _).with_cursor (Nat.le_refl s.cmdlen), rfl, rfl⟩ rfl rfl⟩

theorem toBegin_effect (hs : Sane Q s held) :
    ∃ s' str, s.toBegin = some s' ∧ Effect Q held s str s' := by
  refine ⟨{ s.print (resetSeq s.promptLen) with cursor := 0 }, _, ?_,
    .home ⟨(hs.print _).with_cursor (Nat.zero_le _), rfl, rfl⟩ rfl rfl rfl⟩
  rw [MicrorlT.toBegin, terminalResetCursor_eq hs.prompt_lt]
  rfl

theorem toRight_effect (hs : Sane Q s held) : ∃ str, Effect Q held s str s.toRight := by
  unfold MicrorlT.toRight
  split
  · rw [terminalMoveCursor_eq]
    refine ⟨_, .move ⟨(hs.print _).with_cursor ‹_›, rfl, rfl⟩ ?_ rfl⟩
    congr 1
    simp
  · exact ⟨_, hs.stay⟩

theorem toLeft_effect (hs : Sane Q s held) : ∃ str, Effect Q held s str s.toLeft := by
  have hcur := hs.cursor_le
  unfold MicrorlT.toLeft
  split
  · rw [terminalMoveCursor_eq]
    have hle : s.cursor - 1 ≤ (s.print (moveSeq (-1))).cmdlen := by
      show s.cursor - 1 ≤ s.cmdlen
      omega
    refine ⟨_, .move ⟨(hs.print _).with_cursor hle, rfl, rfl⟩ ?_ rfl⟩
    congr 1
    simp only
    omega
  · exact ⟨_, hs.stay⟩

theorem histSearch_effect (hQ : Admits Q) (hs : Sane Q s held) (dir : Dir) :
    ∃ s' str, s.histSearch dir = some s' ∧ Effect Q held s str s' := by
  rcases histSearch_eq hQ hs dir with h | ⟨s₁, hleaves, h⟩
  · exact ⟨s, [], h, hs.stay⟩
  · have hlead := hleaves.print (resetSeq s₁.promptLen)
    rw [List.nil_append, hleaves.promptLen] at hlead
    refine ⟨_, _, ?_, Lead.reset.effect hlead (Nat.zero_le _) rfl⟩
    rw [h, MicrorlT.print_print, hleaves.promptLen]
    rfl

theorem keyNak_effect (hQ : Admits Q) (hs : Sane Q s held) :
    ∃ s' str, s.keyNak = some s' ∧ Effect Q held s str s' := by
  obtain ⟨s₁, hleaves, hcursor, hkey⟩ := keyNak_eq hQ hs
  have hlead := Lead.back s.cursor (Nat.le_refl _)
  rw [Nat.sub_self] at hlead
  refine ⟨_, _, ?_, hlead.effect hleaves (Nat.zero_le _) rfl⟩
  rw [hkey, hcursor]

theorem keyVt_effect (hs : Sane Q s held) : Effect Q held s [27, 91, 75] s.keyVt := by
  have hsane := (hs.print [27, 91, 75]).with_line (Nat.le_refl _)
    (hs.cursor_le.trans hs.cmdlen_le) hs.guard hs.bytes
  exact .cut ⟨hsane, rfl, rfl⟩ rfl (slice_eq_take_line hs.cursor_le) rfl

theorem keyDel_effect (hQ : Admits Q) (hs : Sane Q s held) :
    ∃ s' str, s.keyDel = some s' ∧ Effect Q held s str s' := by
  have hcur := hs.cursor_le
  by_cases hpos : 0 < s.cursor
  · have hlead := Lead.back (s := s) 1 hpos
    refine ⟨_, _, keyDel_eq hs hQ hpos, hlead.effect (Leaves.erased hQ hs hpos) ?_ ?_⟩
    · show s.cursor - 1 ≤ s.cmdlen - 1
      omega
    · rw [MicrorlT.print_line, line_erased hs hpos]
      exact List.take_left' (by rw [List.length_take, MicrorlT.length_line]; omega)
  · have hzero : s.cursor = 0 := by omega
    have hlead := Lead.back (s := s) 0 (Nat.zero_le _)
    rw [hzero] at hlead
    refine ⟨_, _, ?_, hlead.effect hs.leaves (Nat.zero_le _) rfl⟩
    rw [keyDel_zero hs hzero, hzero]

theorem keyDc2_effect (hs : Sane Q s held) :
    ∃ s' str, s.keyDc2 = some s' ∧ Effect Q held s str s' := by
  refine ⟨_, _, ?_, Lead.prompt.effect (hs.leaves.print _) (Nat.zero_le _) rfl⟩
  rw [keyDc2_eq hs, MicrorlT.print_print]
  rfl

theorem keyDefault_effect (hQ : Admits Q) (hs : Sane Q s held) (hdel : ch ≠ 127) :
    ∃ s' str, s.keyDefault ch = some s' ∧ Effect Q held s str s' := by
  have hcur := hs.cursor_le
  by_cases hskip : ((ch = 32 ∧ s.cmdlen = 0) ∨ ch ≤ 31) ∨ ¬ s.cmdlen + 1 < 101
  · exact ⟨s, [], keyDefault_ignored hskip, hs.stay⟩
  obtain ⟨hkey, hroom⟩ := not_or.1 hskip
  obtain ⟨hsane, heq⟩ := keyDefault_eq hQ hs hkey hdel (not_not.1 hroom)
  have hleaves : Leaves Q s [] (inserted s [ch]) held := ⟨hsane, rfl, (List.append_nil _).symm⟩
  cases hecho : s.terminalHasEcho with
  | true => exact ⟨_, _, heq, .echoed (hleaves.print _) hecho⟩
  | false =>
    rw [hecho, if_neg Bool.false_ne_true] at heq
    -- the line is printed from the new character on, with nothing in front
    have hlead := Lead.back (s := s) 0 (Nat.zero_le _)
    refine ⟨_, _, heq, hlead.effect hleaves ?_ ?_⟩
    · show s.cursor ≤ s.cmdlen + 1
      omega
    · rw [line_inserted hs, List.append_assoc]
      exact List.take_left' (by rw [List.length_take, MicrorlT.length_line]; omega)

/-- **Every key of the switch but Enter and TAB** answers, with one of
the effects. -/
theorem processKey_effect (hQ : Admits Q) (hs : Sane Q s held) (htab : ch ≠ 9) (hcr : ch ≠ 13) :
    ∃ s' str, s.processKey ch = some s' ∧ Effect Q held s str s' := by
  unfold MicrorlT.processKey
  -- the keys in the order of the switch
  by_cases h : ch = 10
  · rw [if_pos h]
    exact ⟨s, [], rfl, hs.stay⟩
  rw [if_neg h, if_neg hcr, if_neg htab]
  by_cases h : ch = 27
  · rw [if_pos h]
    exact ⟨_, [], rfl, hs.stay.with_escape s.escapeSeq true⟩
  rw [if_neg h]
  by_cases h : ch = 21
  · rw [if_pos h]
    exact keyNak_effect hQ hs
  rw [if_neg h]
  by_cases h : ch = 11
  · rw [if_pos h]
    exact ⟨_, _, rfl, keyVt_effect hs⟩
  rw [if_neg h]
  by_cases h : ch = 5
  · rw [if_pos h]
    obtain ⟨str, heffect⟩ := toEnd_effect hs
    exact ⟨_, str, rfl, heffect⟩
  rw [if_neg h]
  by_cases h : ch = 1
  · rw [if_pos h]
    exact toBegin_effect hs
  rw [if_neg h]
  by_cases h : ch = 6
  · rw [if_pos h]
    obtain ⟨str, heffect⟩ := toRight_effect hs
    exact ⟨_, str, rfl, heffect⟩
  rw [if_neg h]
  by_cases h : ch = 2
  · rw [if_pos h]
    obtain ⟨str, heffect⟩ := toLeft_effect hs
    exact ⟨_, str, rfl, heffect⟩
  rw [if_neg h]
  by_cases h : ch = 16
  · rw [if_pos h]
    exact histSearch_effect hQ hs .up
  rw [if_neg h]
  by_cases h : ch = 14
  · rw [if_pos h]
    exact histSearch_effect hQ hs .down
  rw [if_neg h]
  by_cases hdel : ch = 127 ∨ ch = 8
  · rw [if_pos hdel]
    exact keyDel_effect hQ hs
  rw [if_neg hdel]
  by_cases h : ch = 18
  · rw [if_pos h]
    exact keyDc2_effect hs
  rw [if_neg h]
  exact keyDefault_effect hQ hs fun h => hdel (Or.inl h)

/-- So does every byte of an escape sequence, whether it ends the sequence
or not. -/
theorem escapeProcess_effect (hQ : Admits Q) (hs : Sane Q s held) (ch : UInt8) :
    ∃ s' str done, s.escapeProcess ch = some (s', done) ∧ Effect Q held s str s' := by
  unfold MicrorlT.escapeProcess
  split
  · exact ⟨_, [], false, rfl, hs.stay.with_escape .bracket s.escape⟩
  split
  -- behind `ESC [`: the arrows, and the digits of Home and End
  · split
    · obtain ⟨s', str, hup, heffect⟩ := histSearch_effect hQ hs .up
      exact ⟨s', str, true, by simp [hup], heffect⟩
    split
    · obtain ⟨s', str, hdown, heffect⟩ := histSearch_effect hQ hs .down
      exact ⟨s', str, true, by simp [hdown], heffect⟩
    split
    · obtain ⟨str, heffect⟩ := toRight_effect hs
      exact ⟨_, str, true, rfl, heffect⟩
    split
    · obtain ⟨str, heffect⟩ := toLeft_effect hs
      exact ⟨_, str, true, rfl, heffect⟩
    split
    · exact ⟨_, [], false, rfl, hs.stay.with_escape .home s.escape⟩
    split
    · exact ⟨_, [], false, rfl, hs.stay.with_escape .end s.escape⟩
    · exact ⟨s, [], true, rfl, hs.stay⟩
  split
  · split
    · obtain ⟨s', str, hbegin, heffect⟩ := toBegin_effect hs
      exact ⟨s', str, true, by simp [hbegin], heffect⟩
    split
    · obtain ⟨str, heffect⟩ := toEnd_effect hs
      exact ⟨_, str, true, rfl, heffect⟩
    · exact ⟨s, [], true, rfl, hs.stay⟩
  · exact ⟨s, [], true, rfl, hs.stay⟩

/-- **One byte**, where it is not an Enter or a TAB of the switch, is
answered, and has one of the effects of a key. -/
theorem microrlInsertChar_effect (hQ : Admits Q) (hs : Sane Q s held)
    (htab : s.escape = false → ch ≠ 9) (hcr : s.escape = false → ch ≠ 13) :
    ∃ s' str, s.microrlInsertChar ch = some s' ∧ Effect Q held s str s' := by
  unfold MicrorlT.microrlInsertChar
  cases hesc : s.escape with
  | false =>
    obtain ⟨s', str, hkey, heffect⟩ := processKey_effect hQ hs (htab hesc) (hcr hesc)
    exact ⟨s', str, hkey, heffect⟩
  | true =>
    obtain ⟨s', str, done, hproc, heffect⟩ := escapeProcess_effect hQ hs ch
    refine ⟨if done then { s' with escape := false } else s', str, by simp [hproc], ?_⟩
    split
    · exact heffect.with_escape s'.escapeSeq false
    · exact heffect

/-! ## Enter -/

/-- The line saved, where it is not empty: the history then holds lines of
admitted bytes again. -/
theorem saveLine_eq (hs : Sane Q s held) :
    ∃ h held', s.saveLine = some h ∧ Holds h held' ∧ ∀ l ∈ held', ∀ c ∈ l, Q c := by
  have hle := hs.cmdlen_le
  unfold MicrorlT.saveLine
  by_cases hpos : s.cmdlen > 0
  · rw [if_pos hpos]
    by_cases hskip : s.cmdlen > 62
    · exact ⟨s.ringHist, held, if_pos hskip, hs.hist, hs.lines⟩
    · obtain ⟨h, j, hsave, -, hholds, -, -⟩ := histSaveLine_eq hs.hist s.cmdline hpos
        (Nat.le_of_not_lt hskip) (by rw [commandLineLen]; omega)
      refine ⟨h, _, hsave, hholds, fun l hl c hc => ?_⟩
      rcases List.mem_append.1 hl with hl | hl
      · exact hs.lines l (List.mem_of_mem_drop hl) c hc
      · rw [List.mem_singleton.1 hl] at hc
        exact mem_line hs hc
  · rw [if_neg hpos]
    exact ⟨s.ringHist, held, rfl, hs.hist, hs.lines⟩

/-- The call of `execute` that Enter makes: none for a line without a word,
and none for one with more words than `tkn_arr` takes. -/
def executed (s : MicrorlT) : List Call :=
  if 0 < (s.cmdline.starts s.cmdlen).length ∧
      (s.cmdline.starts s.cmdlen).length < commandTokenNmb ∧ s.execute then
    [⟨(s.cmdline.starts s.cmdlen).length, s.cmdline.starts s.cmdlen, s.cmdline⟩]
  else []

theorem runLine_eq (s : MicrorlT) :
    ∃ str, s.runLine (answer (s.cmdline.starts s.cmdlen)) =
      { s.print str with calls := s.calls ++ executed s } := by
  unfold answer executed
  by_cases hlt : (s.cmdline.starts s.cmdlen).length < commandTokenNmb
  · rw [if_pos hlt]
    by_cases hcall : 0 < (s.cmdline.starts s.cmdlen).length ∧ s.execute
    · refine ⟨[], ?_⟩
      rw [if_pos ⟨hcall.1, hlt, hcall.2⟩, MicrorlT.print_nil]
      exact if_pos hcall
    · refine ⟨[], ?_⟩
      rw [if_neg (fun h => hcall ⟨h.1, h.2.2⟩), MicrorlT.print_nil, List.append_nil]
      exact if_neg hcall
  · rw [if_neg hlt, if_neg (fun h => hlt h.2.1), List.append_nil]
    exact ⟨_, MicrorlT.print_print _ _⟩

/-- **Enter** answers: it calls `execute` where there is a line to be run,
and leaves an empty line in an editor in range. -/
theorem newLineHandler_eq (hQ : Admits Q) (hs : Sane Q s held) :
    ∃ s' held', s.newLineHandler = some s' ∧ Sane Q s' held' ∧ s'.settings = s.settings ∧
      s'.cmdlen = 0 ∧ s'.escape = s.escape ∧ s'.calls = s.calls ++ executed s := by
  obtain ⟨h, held', hsave, hholds, hlines⟩ := saveLine_eq hs
  obtain ⟨str, hrun⟩ := runLine_eq s.terminalNewline
  have hclear : clearLine s.cmdline = some (s.cmdline.overwrite 0 (List.replicate commandLineLen 0)) :=
    Block.write_of_le (by simp)
  have hzero : ∀ k, k < 101 →
      (s.cmdline.overwrite 0 (List.replicate commandLineLen 0)).byte k = 0 := by
    intro k hk
    rw [Block.byte_overwrite, if_pos (by simp; omega), List.getD_eq_getElem?_getD,
      List.getElem?_replicate]
    split <;> rfl
  have hsave' : s.terminalNewline.saveLine = some h := hsave
  have hsplit : split s.terminalNewline.cmdline s.terminalNewline.cmdlen =
      some (answer (s.cmdline.starts s.cmdlen)) := split_eq hs.cmdlen_le
  refine ⟨{ s.print (endl ++ str ++ s.promptStr) with
      ringHist := { h with cur := 0 }
      cmdline := s.cmdline.overwrite 0 (List.replicate commandLineLen 0)
      cmdlen := 0
      cursor := 0
      calls := s.calls ++ executed s }, held', ?_,
    ⟨Nat.le_refl 0, Nat.zero_le 100, hzero 100 (by omega), fun k hk => ?_, hholds.with_cur 0, hlines,
      Nat.zero_le _, hs.prompt_lt⟩, rfl, rfl, rfl, rfl⟩
  · have hrun' : s.terminalNewline.runLine (answer (s.cmdline.starts s.cmdlen)) =
        { s.terminalNewline.print str with calls := s.calls ++ executed s } := hrun
    simp only [MicrorlT.newLineHandler, hsave', hsplit, hrun', Option.bind_eq_bind, Option.bind_some]
    simp only [MicrorlT.printPrompt, MicrorlT.terminalNewline, MicrorlT.print_cmdline,
      MicrorlT.print_print, hclear, Option.bind_some]
    simp only [MicrorlT.print, List.append_assoc]
    rfl
  · show Q ((s.cmdline.overwrite 0 (List.replicate commandLineLen 0)).byte k)
    rw [hzero k hk]
    exact hQ.zero

theorem microrlInsertChar_enter (hesc : s.escape = false) :
    s.microrlInsertChar 13 = s.newLineHandler := by
  unfold MicrorlT.microrlInsertChar
  rw [hesc]
  rfl

/-- **Any byte but a TAB** of the switch, Enter included, is answered, and
leaves an editor in range. -/
theorem microrlInsertChar_sane (hQ : Admits Q) (hs : Sane Q s held)
    (htab : s.escape = false → ch ≠ 9) :
    ∃ s' held', s.microrlInsertChar ch = some s' ∧ Sane Q s' held' ∧ s'.settings = s.settings := by
  by_cases henter : s.escape = false ∧ ch = 13
  · obtain ⟨hesc, rfl⟩ := henter
    obtain ⟨s', held', hkey, hs', hset, -⟩ := newLineHandler_eq hQ hs
    exact ⟨s', held', (microrlInsertChar_enter hesc).trans hkey, hs', hset⟩
  · obtain ⟨s', str, hkey, heffect⟩ := microrlInsertChar_effect hQ hs htab
      (fun hesc hcr => henter ⟨hesc, hcr⟩)
    exact ⟨s', held, hkey, heffect.leaves.sane, heffect.leaves.settings⟩

end Microrl

end SlipBoard
