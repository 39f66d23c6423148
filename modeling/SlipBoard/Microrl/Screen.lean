import SlipBoard.Common.Terminal
import SlipBoard.Microrl.Completion
/-!
# Line editor — the screen

What a key prints is a mix of relative moves, erasures and parts of the
line, and each `Effect` of a key is one such mix. Fed to a terminal
whose line shows the prompt and the line, with the cursor where the
editor has it, every effect leaves the terminal showing the new line
(`Effect.shows`); over a run that is `screen_agrees`. Two numbers carry
it: `terminal_reset_cursor` goes back further than any line reaches,
and the numbers it prints have at most five digits.
-/

namespace SlipBoard

namespace Microrl

open Transition

variable {s s' : MicrorlT} {held : List (List UInt8)} {cells : List UInt8} {col n : ℕ}
  {prompt : Coloured}

/-! ## Numbers in sequences -/

theorem digit_spec (d : ℕ) (h : d < 10) :
    Digit (UInt8.ofNat (d + 48)) ∧ (UInt8.ofNat (d + 48)).toNat - 48 = d := by
  revert d
  decide

theorem digitsUp_spec (fuel : ℕ) {nmb : ℕ} (h : nmb < 10 ^ fuel) :
    (∀ c ∈ digitsUp fuel nmb, Digit c) ∧
      (digitsUp fuel nmb).foldr (fun c v => 10 * v + (c.toNat - 48)) 0 = nmb := by
  induction fuel generalizing nmb with
  | zero =>
    rw [Nat.pow_zero, Nat.lt_one_iff] at h
    exact ⟨by simp [digitsUp], by simp [digitsUp, h]⟩
  | succ fuel ih =>
    rw [Nat.pow_succ] at h
    obtain ⟨hdigits, hvalue⟩ := ih (show nmb / 10 < 10 ^ fuel by omega)
    obtain ⟨hdigit, hlow⟩ := digit_spec (nmb % 10) (by omega)
    unfold digitsUp
    split
    · refine ⟨fun c hc => ?_, ?_⟩
      · rcases List.mem_cons.1 hc with rfl | hc
        · exact hdigit
        · exact hdigits c hc
      · rw [List.foldr_cons, hvalue, hlow]
        omega
    · exact ⟨by simp, by rw [List.foldr_nil]; omega⟩

/-- **`u16bit_to_str`** writes a number above zero in decimal; for zero it
writes nothing. -/
theorem u16bitToStr_spec (hpos : 0 < n) (hn : n ≤ 0xFFFF) :
    (∀ c ∈ u16bitToStr n, Digit c) ∧ u16bitToStr n ≠ [] ∧ Term.decimal (u16bitToStr n) = n := by
  obtain ⟨hdigits, hvalue⟩ := digitsUp_spec 5 (show n < 10 ^ 5 by omega)
  rw [u16bitToStr, if_pos hn]
  refine ⟨fun c hc => hdigits c (List.mem_reverse.1 hc), ?_, ?_⟩
  · rw [Ne, List.reverse_eq_nil_iff, digitsUp, if_pos hpos]
    exact List.cons_ne_nil _ _
  · rw [Term.decimal, List.foldl_reverse, hvalue]

/-- `terminal_move_cursor`, from one place of the line to another. -/
theorem feed_moveSeq (cells : List UInt8) (col : ℕ) {i j : ℕ} (hi : i ≤ 100) (hj : j ≤ 100) :
    (Term.line cells (col + i)).feed (moveSeq ((j : ℤ) - i)) = Term.line cells (col + j) := by
  unfold moveSeq
  rcases Nat.lt_trichotomy i j with hlt | rfl | hgt
  · obtain ⟨hdigits, hne, hvalue⟩ := u16bitToStr_spec (show 0 < j - i by omega) (by omega)
    rw [if_pos (by omega), show ((j : ℤ) - i).toNat = j - i by omega,
      Term.line_feed_right hdigits hne, hvalue]
    congr 1
    omega
  · rw [if_neg (by omega), if_neg (by omega), Term.feed_nil]
  · obtain ⟨hdigits, hne, hvalue⟩ := u16bitToStr_spec (show 0 < i - j by omega) (by omega)
    rw [if_neg (by omega), if_pos (by omega), show (-((j : ℤ) - i)).toNat = i - j by omega,
      Term.line_feed_left hdigits hne, hvalue]
    congr 1
    omega

/-- `terminal_reset_cursor` goes to the end of the prompt from wherever in
the line the cursor is. -/
theorem feed_resetSeq (hpos : 0 < n) (hn : n ≤ 9000) (hcol : col ≤ n + 103) :
    (Term.line cells col).feed (resetSeq n) = Term.line cells n := by
  obtain ⟨hdigits, hne, hvalue⟩ :=
    u16bitToStr_spec (show 0 < commandLineLen + n + 2 by omega) (by rw [commandLineLen]; omega)
  obtain ⟨hdigits', hne', hvalue'⟩ := u16bitToStr_spec hpos (by omega)
  have hsplit : resetSeq n = ([27, 91] ++ u16bitToStr (commandLineLen + n + 2) ++ [68]) ++
      ([27, 91] ++ u16bitToStr n ++ [67]) := by
    simp [resetSeq]
  -- further left than any line reaches, which stops at the first column, and out again
  rw [hsplit, Term.feed_append, Term.line_feed_left hdigits hne, hvalue,
    Term.line_feed_right hdigits' hne', hvalue', commandLineLen]
  congr 1
  omega

/-! ## The screen -/

/-- The bytes a line shows as one character each: zeros, as spaces, and
what can be printed. -/
def Clean (c : UInt8) : Prop := c = 0 ∨ Printable c

theorem admits_clean : Admits Clean := ⟨Or.inl rfl, fun _ hlow hdel => Or.inr ⟨hlow, hdel⟩⟩

theorem printable_showByte {c : UInt8} (h : Clean c) : Printable (MicrorlT.showByte c) := by
  unfold MicrorlT.showByte
  split
  · decide
  · exact h.resolve_left ‹_›

/-- What the editor is set up with: the prompt and its width, a terminal
without an echo, and names that can be printed. -/
structure Prompted (prompt : Coloured) (s : MicrorlT) : Prop where
  promptStr : s.promptStr = prompt.bytes
  promptLen : s.promptLen = prompt.glyphs.length
  pos : 0 < prompt.glyphs.length
  le : prompt.glyphs.length ≤ 9000
  echo : s.terminalHasEcho = false
  names : ∀ keyworld ∈ s.getCompletion, ∀ name ∈ keyworld, ∀ c ∈ name, Printable c

theorem Prompted.of_settings (h : Prompted prompt s) (hset : s'.settings = s.settings) :
    Prompted prompt s' := by
  simp only [MicrorlT.settings, Prod.mk.injEq] at hset
  obtain ⟨hstr, hlen, hecho, htable, -⟩ := hset
  exact ⟨hstr.trans h.promptStr, hlen.trans h.promptLen, h.pos, h.le, hecho.trans h.echo,
    htable ▸ h.names⟩

theorem Prompted.admitted (h : Prompted prompt s) : NamesAdmitted Clean s := by
  intro keyworld hkey name hname c hc
  unfold zeroSpace
  split
  · exact Or.inl rfl
  · exact Or.inr (h.names keyworld hkey name hname c hc)

/-- **What the terminal is to show**: the prompt and the line, zeros as
spaces, and the cursor in its place. -/
def shown (prompt : Coloured) (s : MicrorlT) : Term :=
  Term.line (prompt.glyphs ++ s.line.map MicrorlT.showByte) (prompt.glyphs.length + s.cursor)

/-- The front of what is shown is what is shown of the front of the line. -/
theorem take_shown (prompt : Coloured) (line : List UInt8) (pos : ℕ) :
    (prompt.glyphs ++ line.map MicrorlT.showByte).take (prompt.glyphs.length + pos) =
      prompt.glyphs ++ (line.take pos).map MicrorlT.showByte := by
  rw [List.take_length_add_append, List.map_take]

/-- Backspaces leave what is in front of them, and end on the column they go
back to. -/
theorem feed_backspaces (hn : n ≤ col) (hcol : col ≤ cells.length) :
    ∃ cells', (Term.line cells col).feed (List.replicate n backspaceSeq).flatten =
        Term.line cells' (col - n) ∧ cells'.take (col - n) = cells.take (col - n) := by
  induction n generalizing cells col with
  | zero => exact ⟨cells, rfl, rfl⟩
  | succ n ih =>
    have hset : col - 1 ≤ (cells.set (col - 1) 32).length := by
      rw [List.length_set]
      omega
    obtain ⟨cells', hfeed, htake⟩ := ih (show n ≤ col - 1 by omega) hset
    rw [show col - 1 - n = col - (n + 1) by omega] at hfeed htake
    refine ⟨cells', ?_, ?_⟩
    · rw [List.replicate_succ, List.flatten_cons, Term.feed_append, backspaceSeq,
        Term.line_feed_backspace (by omega) hcol]
      exact hfeed
    · rw [htake, List.take_set_of_le (by omega)]

/-- A new line, the prompt, and back to its end. -/
theorem feed_prompt {t : Term} (hp : Prompted prompt s) (hmode : t.mode = .ground) :
    t.feed (endl ++ s.promptStr ++ resetSeq s.promptLen) =
      Term.line prompt.glyphs prompt.glyphs.length := by
  have hprompt : (Term.line [] 0).feed prompt.bytes =
      Term.line prompt.glyphs prompt.glyphs.length := Term.line_feed_coloured prompt
  rw [Term.feed_append, Term.feed_append, endl, Term.feed_newline hmode, hp.promptStr, hprompt,
    hp.promptLen, feed_resetSeq hp.pos hp.le (by omega)]

/-- The list of the names holds no escape, so the terminal shows it as it
is. -/
theorem escape_not_mem_names {names : List (List UInt8)}
    (h : ∀ name ∈ names, ∀ c ∈ name, Printable c) :
    27 ∉ names.flatMap fun name => name ++ [32] := by
  intro hmem
  obtain ⟨name, hname, hc⟩ := List.mem_flatMap.1 hmem
  rcases List.mem_append.1 hc with hc | hc
  · exact absurd (h name hname 27 hc) (by decide)
  · exact absurd (List.mem_singleton.1 hc) (by decide)

/-- **What is printed in front of the line** leaves the cursor at the
place the line is printed from, with the characters in front of it as
they were. -/
theorem Lead.feed {pos : ℕ} {lead : List UInt8} (hp : Prompted prompt s) (hs : Sane Clean s held)
    (h : Lead s pos lead) :
    ∃ cells, (shown prompt s).feed lead = Term.line cells (prompt.glyphs.length + pos) ∧
      cells.take (prompt.glyphs.length + pos) =
        prompt.glyphs ++ (s.line.take pos).map MicrorlT.showByte := by
  have hcur := hs.cursor_le
  have hle := hs.cmdlen_le
  have hpos := hp.pos
  have hnine := hp.le
  cases h with
  | back n hn =>
    have hend : prompt.glyphs.length + s.cursor ≤
        (prompt.glyphs ++ s.line.map MicrorlT.showByte).length := by
      rw [List.length_append, List.length_map, MicrorlT.length_line]
      omega
    obtain ⟨cells, hfeed, htake⟩ :=
      feed_backspaces (show n ≤ prompt.glyphs.length + s.cursor by omega) hend
    rw [Nat.add_sub_assoc hn] at hfeed htake
    exact ⟨cells, hfeed, htake.trans (take_shown prompt s.line _)⟩
  | reset =>
    refine ⟨_, ?_, take_shown prompt s.line 0⟩
    rw [hp.promptLen]
    exact feed_resetSeq hpos hnine (by omega)
  | prompt =>
    refine ⟨prompt.glyphs, feed_prompt hp rfl, ?_⟩
    simp
  | names names hsub =>
    refine ⟨prompt.glyphs, ?_, by simp⟩
    obtain ⟨keyworld, hkey, hsub⟩ := hsub
    have hesc := escape_not_mem_names fun name hname => hp.names keyworld hkey name (hsub hname)
    -- the list is gone with its line, so of the terminal only the mode is left
    have hmode : ((shown prompt s).feed
        (endl ++ names.flatMap fun name => name ++ [32])).mode = .ground :=
      Term.feed_ground rfl (by rw [List.mem_append, not_or]; exact ⟨by decide, hesc⟩)
    rw [Nat.add_zero, ← feed_prompt hp hmode, ← Term.feed_append]
    simp only [List.append_assoc]

/-- **`terminal_print_line`** shows the line from `pos` on behind what
stands in front. -/
theorem feed_lineSeq {pos : ℕ} (hp : Prompted prompt s) (hs : Sane Clean s held)
    (hpos : pos ≤ s.cmdlen) (hcells : cells.take (prompt.glyphs.length + pos) =
      prompt.glyphs ++ (s.line.take pos).map MicrorlT.showByte) :
    (Term.line cells (prompt.glyphs.length + pos)).feed (lineSeq s pos s.cursor) =
      shown prompt s := by
  have hcur := hs.cursor_le
  have hle := hs.cmdlen_le
  have hclean : ∀ c ∈ (s.line.drop pos).map MicrorlT.showByte, Printable c := by
    intro c hc
    obtain ⟨d, hd, rfl⟩ := List.mem_map.1 hc
    exact printable_showByte (mem_line hs (List.mem_of_mem_drop hd))
  have hlen : (prompt.glyphs ++ (s.line.take pos).map MicrorlT.showByte).length =
      prompt.glyphs.length + pos := by
    rw [List.length_append, List.length_map, List.length_take, MicrorlT.length_line]
    omega
  have hall : prompt.glyphs ++ (s.line.take pos).map MicrorlT.showByte ++
      (s.line.drop pos).map MicrorlT.showByte = prompt.glyphs ++ s.line.map MicrorlT.showByte := by
    rw [List.append_assoc, ← List.map_append, List.take_append_drop]
  have hend : (prompt.glyphs ++ s.line.map MicrorlT.showByte).length ≤ prompt.glyphs.length + 103 := by
    rw [List.length_append, List.length_map, MicrorlT.length_line]
    omega
  have hmove : (Term.line (prompt.glyphs ++ s.line.map MicrorlT.showByte)
      prompt.glyphs.length).feed (moveSeq s.cursor) = shown prompt s := by
    have hfrom := feed_moveSeq (prompt.glyphs ++ s.line.map MicrorlT.showByte)
      prompt.glyphs.length (Nat.zero_le 100) (hcur.trans hle)
    rwa [Int.natCast_zero, Int.sub_zero, Nat.add_zero] at hfrom
  -- erase, print the rest, back to the prompt, and out to the cursor
  rw [lineSeq, Term.feed_append, Term.feed_append, Term.feed_append, Term.line_feed_erase, hcells,
    ← hlen, Term.line_feed_text hclean, hall, hp.promptLen, feed_resetSeq hp.pos hp.le hend, hmove]

/-- **Every effect of a key leaves the screen showing the line**: what the
key prints takes the screen from the line before it to the line behind it. -/
theorem Effect.shows {str : List UInt8} (hp : Prompted prompt s) (hs : Sane Clean s held)
    (h : Effect Clean held s str s') : (shown prompt s).feed str = shown prompt s' := by
  have hcur := hs.cursor_le
  have hle := hs.cmdlen_le
  have hp' := hp.of_settings h.leaves.settings
  have hcur' := h.leaves.sane.cursor_le
  have hle' := h.leaves.sane.cmdlen_le
  cases h with
  | stay _ hstr hline hcursor => rw [hstr, Term.feed_nil, shown, shown, hline, hcursor]
  | move _ hstr hline =>
    rw [hstr, shown, feed_moveSeq _ _ (hcur.trans hle) (hcur'.trans hle'), shown, hline]
  | home _ hstr hline hcursor =>
    rw [hstr, hp.promptLen, shown, feed_resetSeq hp.pos hp.le (by omega), shown, hline, hcursor,
      Nat.add_zero]
  | cut _ hstr hline hcursor =>
    rw [hstr, shown, Term.line_feed_erase, take_shown, shown, hline, hcursor]
  | tail hlead hleaves hpos hline hstr hs' =>
    obtain ⟨cells, hfeed, htake⟩ := hlead.feed hp hs
    rw [hstr, Term.feed_append, hfeed, hs',
      feed_lineSeq (hp.of_settings hleaves.settings) hleaves.sane hpos (by rw [htake, hline])]
    rfl
  | echoed _ hecho =>
    rw [hp.echo] at hecho
    cases hecho

/-! ## Runs -/

/-- The bytes of a line being edited: no Enter, and a TAB only behind a
character and fewer than ten words. -/
def Admissible (s : MicrorlT) (ch : UInt8) : Prop :=
  ch ≠ 13 ∧ (ch = 9 → s.escape = false →
    0 < s.cursor ∧ (s.cmdline.words s.cursor).length < commandTokenNmb)

instance (s : MicrorlT) (ch : UInt8) : Decidable (Admissible s ch) :=
  inferInstanceAs (Decidable (_ ∧ _))

/-- **One byte**: it is answered, and the screen keeps showing the line. -/
theorem microrlInsertChar_shows {ch : UInt8} (hp : Prompted prompt s) (hs : Sane Clean s held)
    (h : Admissible s ch) :
    ∃ s' str, s.microrlInsertChar ch = some s' ∧ Effect Clean held s str s' ∧
      (shown prompt s).feed str = shown prompt s' := by
  obtain ⟨s', str, hkey, heffect⟩ : ∃ s' str, s.microrlInsertChar ch = some s' ∧
      Effect Clean held s str s' := by
    by_cases htab : s.escape = false ∧ ch = 9
    · obtain ⟨hesc, rfl⟩ := htab
      obtain ⟨hpos, hwords⟩ := h.2 rfl hesc
      obtain ⟨argv, hargv, hne⟩ := completArgv_eq hs hpos hwords
      rw [microrlInsertChar_tab hesc]
      refine (getComplite_effect admits_clean hs hp.admitted).resolve_right ?_
      rintro ⟨-, hnone | hnil⟩
      · rw [hargv] at hnone
        cases hnone
      · rw [hargv] at hnil
        exact hne (Option.some.inj hnil)
    · exact microrlInsertChar_effect admits_clean hs (fun hesc hch => htab ⟨hesc, hch⟩) fun _ => h.1
  exact ⟨s', str, hkey, heffect, heffect.shows hp hs⟩

/-- The terminal a prompt and then `str` have been sent to, at the start
of a blank line. -/
def terminal (prompt : Coloured) (str : List UInt8) : Term :=
  (Term.line [] 0).feed (prompt.bytes ++ str)

/-- **The screen agrees with the line**: a terminal fed with what has been
printed since `s₀` shows the prompt and the line, with the cursor where the
editor has it. -/
def Agrees (prompt : Coloured) (s₀ s : MicrorlT) : Prop :=
  s₀.out <+: s.out ∧ terminal prompt (s.out.drop s₀.out.length) = shown prompt s

theorem Agrees.step {str : List UInt8} {s₀ : MicrorlT} (h : Agrees prompt s₀ s)
    (hout : s'.out = s.out ++ str) (hfeed : (shown prompt s).feed str = shown prompt s') :
    Agrees prompt s₀ s' := by
  obtain ⟨hpre, hterm⟩ := h
  refine ⟨hpre.trans (hout ▸ List.prefix_append _ _), ?_⟩
  rw [hout, List.drop_append_of_le_length hpre.length_le, terminal, ← List.append_assoc,
    Term.feed_append]
  exact (congrArg (fun t => Term.feed t str) hterm).trans hfeed

/-- What the bytes of a line being edited keep: the editor is in range, its
prompt is the one shown, and the terminal agrees with the line. -/
structure Follows (prompt : Coloured) (s₀ s : MicrorlT) : Prop where
  sane : ∃ held, Sane Clean s held
  prompted : Prompted prompt s
  agrees : Agrees prompt s₀ s

/-- Just behind a prompt the line is empty, and the prompt alone is
shown. -/
theorem Follows.start (hs : Sane Clean s held) (hp : Prompted prompt s) (hempty : s.cmdlen = 0) :
    Follows prompt s s := by
  have hcur := hs.cursor_le
  refine ⟨⟨held, hs⟩, hp, List.prefix_refl _, ?_⟩
  have hline : s.line = [] := List.length_eq_zero_iff.1 (by rw [MicrorlT.length_line, hempty])
  have hprompt : (Term.line [] 0).feed prompt.bytes =
      Term.line prompt.glyphs prompt.glyphs.length := Term.line_feed_coloured prompt
  rw [List.drop_length, terminal, List.append_nil, hprompt, shown, hline, List.map_nil,
    List.append_nil, show s.cursor = 0 by omega, Nat.add_zero]

theorem Follows.step {s₀ : MicrorlT} {ch : UInt8} (h : Follows prompt s₀ s) (hch : Admissible s ch) :
    ∃ s', s.microrlInsertChar ch = some s' ∧ Follows prompt s₀ s' := by
  obtain ⟨⟨held, hs⟩, hp, hagrees⟩ := h
  obtain ⟨s', str, hkey, heffect, hfeed⟩ := microrlInsertChar_shows hp hs hch
  have hleaves := heffect.leaves
  exact ⟨s', hkey, ⟨held, hleaves.sane⟩, hp.of_settings hleaves.settings,
    hagrees.step hleaves.out hfeed⟩

/-- **The screen agrees with the edit buffer.** Behind any bytes after
which the editor is still answering and the line is empty, for a prompt
of one to 9000 columns, every byte of a line being edited is answered,
and after each of them the terminal shows the prompt and the line. -/
theorem screen_agrees (prompt : Coloured) (hpos : 1 ≤ prompt.glyphs.length)
    (hle : prompt.glyphs.length ≤ 9000) (commands : Option (List (List UInt8)))
    (hnames : ∀ keyworld ∈ commands, ∀ name ∈ keyworld, ∀ c ∈ name, Printable c)
    (earlier bs : List UInt8) {s₀ : MicrorlT}
    (hrun : run MicrorlT.microrlInsertChar (((MicrorlT.start commands false).microlSetPromtStr
      prompt.bytes).microlSetPromptLen prompt.glyphs.length) earlier = some s₀)
    (hempty : s₀.cmdlen = 0) (hbs : Along MicrorlT.microrlInsertChar Admissible s₀ bs) :
    (∃ s, run MicrorlT.microrlInsertChar s₀ bs = some s) ∧
      Always MicrorlT.microrlInsertChar (Agrees prompt s₀) s₀ bs := by
  have hstart := (sane_microrlInit admits_clean).with_settings prompt.bytes
    (show prompt.glyphs.length < 10000 by omega) false true commands
  have hset : Prompted prompt (((MicrorlT.start commands false).microlSetPromtStr
      prompt.bytes).microlSetPromptLen prompt.glyphs.length) :=
    ⟨rfl, rfl, hpos, hle, rfl, hnames⟩
  obtain ⟨held, hs₀, hset₀⟩ := sane_of_run admits_clean hstart hset.admitted hrun
  have hbegin := Follows.start hs₀ (hset.of_settings hset₀) hempty
  constructor
  · obtain ⟨s, hs, -⟩ := run_of_invariant (fun s ch h hch => Follows.step h hch) hbegin hbs
    exact ⟨s, hs⟩
  · refine always_of_invariant (fun s ch t h hch hkey => ?_) (fun s h => Follows.agrees h) hbegin hbs
    obtain ⟨t', hkey', ht⟩ := Follows.step h hch
    obtain rfl := Option.some.inj (hkey'.symm.trans hkey)
    exact ht

/-- `prompt_default`, in its parts: its characters, which take columns, and
the colours around them. -/
def promptDefault : Coloured :=
  [.colour [51, 50] (by decide +kernel), .glyph 83 (by decide), .glyph 32 (by decide),
    .glyph 62 (by decide), .colour [48] (by decide +kernel), .glyph 32 (by decide)]

/-- It is the prompt of `microrl_init`, with its width. -/
theorem promptDefault_eq : promptDefault.bytes = MicrorlT.microrlInit.promptStr ∧
    promptDefault.glyphs.length = MicrorlT.microrlInit.promptLen := by
  decide

/-- "ti", TAB and Enter; then the line is taken from the history, and
edited at its start: a character behind the first, the last removed, and
a tail cut. -/
theorem screen_agrees_default :
    ∃ s₀ s, run MicrorlT.microrlInsertChar (((MicrorlT.start (some keyworld) false).microlSetPromtStr
        promptDefault.bytes).microlSetPromptLen promptDefault.glyphs.length)
        (ascii "ti" ++ [9, 13]) = some s₀ ∧
      run MicrorlT.microrlInsertChar s₀ ([27, 91, 65, 1, 6] ++ ascii "x" ++ [5, 8, 2, 2, 11]) = some s ∧
      s.line = ascii "txi" ∧ Agrees promptDefault s₀ s := by
  have hsome : (run MicrorlT.microrlInsertChar (((MicrorlT.start (some keyworld) false).microlSetPromtStr
      promptDefault.bytes).microlSetPromptLen promptDefault.glyphs.length)
      (ascii "ti" ++ [9, 13])).map (fun s => (decide (s.cmdlen = 0), decide (Along
        MicrorlT.microrlInsertChar Admissible s ([27, 91, 65, 1, 6] ++ ascii "x" ++ [5, 8, 2, 2, 11])),
        (run MicrorlT.microrlInsertChar s ([27, 91, 65, 1, 6] ++ ascii "x" ++ [5, 8, 2, 2, 11])).map
          MicrorlT.line)) = some (true, true, some (ascii "txi")) := by
    decide +kernel
  obtain ⟨s₀, hrun, hfacts⟩ := Option.map_eq_some_iff.1 hsome
  simp only [Prod.mk.injEq, decide_eq_true_eq] at hfacts
  obtain ⟨hempty, hbs, hline⟩ := hfacts
  obtain ⟨s, hs, hline⟩ := Option.map_eq_some_iff.1 hline
  obtain ⟨-, hagrees⟩ := screen_agrees promptDefault (by decide) (by decide) (some keyworld)
    (by decide +kernel) (ascii "ti" ++ [9, 13]) ([27, 91, 65, 1, 6] ++ ascii "x" ++ [5, 8, 2, 2, 11])
    hrun hempty hbs
  exact ⟨s₀, s, hrun, hs, hline, hagrees.last hs⟩

end Microrl

end SlipBoard
