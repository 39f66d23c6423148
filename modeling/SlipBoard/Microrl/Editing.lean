import SlipBoard.Microrl.History
import SlipBoard.Microrl.Model.Editor
/-!
# Line editor — what the keys do to the line

`Sane` is what every key keeps: the cursor inside the line, the line in
front of the last cell of `cmdline`, which stays zero, and a history
ring that holds its lines. Under it no function leaves an array, so each
has an equation: the new state is the old one with a new line, printed
to. The equations are the vocabulary of the modules above, which never
unfold the code.
-/

namespace SlipBoard

namespace Microrl

variable {s : MicrorlT} {held : List (List UInt8)} {text : List UInt8} {k : ℕ}

/-! ## Printing -/

namespace MicrorlT

@[simp] theorem print_out (str : List UInt8) : (s.print str).out = s.out ++ str := rfl

@[simp] theorem print_print (a b : List UInt8) : (s.print a).print b = s.print (a ++ b) := by
  simp [print]

@[simp] theorem print_nil : s.print [] = s := by
  simp [print]

@[simp] theorem print_cmdline (str : List UInt8) : (s.print str).cmdline = s.cmdline := rfl

@[simp] theorem print_cmdlen (str : List UInt8) : (s.print str).cmdlen = s.cmdlen := rfl

@[simp] theorem print_cursor (str : List UInt8) : (s.print str).cursor = s.cursor := rfl

@[simp] theorem print_promptLen (str : List UInt8) : (s.print str).promptLen = s.promptLen := rfl

@[simp] theorem print_promptStr (str : List UInt8) : (s.print str).promptStr = s.promptStr := rfl

end MicrorlT

theorem length_digitsUp_le (fuel : ℕ) {nmb : ℕ} (h : nmb < 10 ^ k) :
    (digitsUp fuel nmb).length ≤ k := by
  induction fuel generalizing nmb k with
  | zero => exact Nat.zero_le k
  | succ fuel ih =>
    unfold digitsUp
    split
    · cases k with
      | zero => omega
      | succ k =>
        rw [Nat.pow_succ] at h
        exact Nat.succ_le_succ (ih (by omega))
    · exact Nat.zero_le k

theorem length_u16bitToStr_le {nmb : ℕ} (h : nmb < 10 ^ k) : (u16bitToStr nmb).length ≤ k := by
  unfold u16bitToStr
  split
  · rw [List.length_reverse]
    exact length_digitsUp_le 5 h
  · exact Nat.zero_le k

/-- What `terminal_reset_cursor` prints: left by more columns than a line
has, then right to the end of the prompt. -/
def resetSeq (promptLen : ℕ) : List UInt8 :=
  [27, 91] ++ u16bitToStr (commandLineLen + promptLen + 2) ++ [68, 27, 91] ++
    u16bitToStr promptLen ++ [67]

/-- What `terminal_move_cursor` prints: a move to the right or to the left,
and nothing for no move. -/
def moveSeq (offset : ℤ) : List UInt8 :=
  if offset > 0 then [27, 91] ++ u16bitToStr offset.toNat ++ [67]
  else if offset < 0 then [27, 91] ++ u16bitToStr (-offset).toNat ++ [68]
  else []

/-- The logical line: the `cmdlen` cells from the front, a zero where a
space was typed. -/
def MicrorlT.line (s : MicrorlT) : List UInt8 := s.cmdline.slice 0 s.cmdlen

/-- What `terminal_print_line` prints: the line from `pos` on, and the
cursor put back to `cursor`. -/
def lineSeq (s : MicrorlT) (pos cursor : ℕ) : List UInt8 :=
  [27, 91, 75] ++ (s.line.drop pos).map MicrorlT.showByte ++ resetSeq s.promptLen ++ moveSeq cursor

@[simp] theorem MicrorlT.length_line : s.line.length = s.cmdlen := Block.length_slice

@[simp] theorem MicrorlT.print_line (str : List UInt8) : (s.print str).line = s.line := rfl

/-- The room of `terminal_reset_cursor`'s string is what bounds the
prompt. -/
theorem terminalResetCursor_eq (hp : s.promptLen < 10000) :
    s.terminalResetCursor = some (s.print (resetSeq s.promptLen)) := by
  have hlen : (resetSeq s.promptLen).length < 16 := by
    have hlong : (u16bitToStr (commandLineLen + s.promptLen + 2)).length ≤ 5 :=
      length_u16bitToStr_le (by simp only [commandLineLen]; omega)
    have hshort : (u16bitToStr s.promptLen).length ≤ 4 := length_u16bitToStr_le (by omega)
    simp only [resetSeq, List.length_append, List.length_cons, List.length_nil]
    omega
  exact if_pos hlen

theorem terminalMoveCursor_eq (offset : ℤ) :
    s.terminalMoveCursor offset = s.print (moveSeq offset) := by
  unfold MicrorlT.terminalMoveCursor moveSeq
  split
  · rfl
  · split
    · rfl
    · exact MicrorlT.print_nil.symm

theorem diff_of_le {a b : ℕ} (h : b ≤ a) : diff a b = some (a - b) := if_pos h

/-! ## What every key keeps -/

/-- The bytes a line may hold: zeros, and what a key inserts. -/
structure Admits (Q : UInt8 → Prop) : Prop where
  zero : Q 0
  key : ∀ c, 31 < c → c ≠ 127 → Q c

/-- **The editor in range**, with bytes that meet `Q` in its arrays: the
line ends in front of its last cell, the cursor is in it, and the history
holds `held`. -/
structure Sane (Q : UInt8 → Prop) (s : MicrorlT) (held : List (List UInt8)) : Prop where
  cursor_le : s.cursor ≤ s.cmdlen
  cmdlen_le : s.cmdlen ≤ 100
  guard : s.cmdline.byte 100 = 0
  bytes : ∀ k, k < 101 → Q (s.cmdline.byte k)
  hist : Holds s.ringHist held
  lines : ∀ l ∈ held, ∀ c ∈ l, Q c
  cur_le : s.ringHist.cur ≤ held.length
  prompt_lt : s.promptLen < 10000

section

variable {Q : UInt8 → Prop}

theorem sane_microrlInit (hQ : Admits Q) : Sane Q .microrlInit [] :=
  ⟨Nat.le_refl 0, Nat.zero_le 100, rfl, fun _ _ => hQ.zero, Holds.init, by simp, Nat.le_refl 0,
    by decide⟩

/-- The setters set nothing the code relies on but the width of the
prompt. -/
theorem Sane.with_settings (hs : Sane Q s held) (prompt : List UInt8) {lne : ℕ} (hlne : lne < 10000)
    (echo execute : Bool) (keyworld : Option (List (List UInt8))) :
    Sane Q { s with
      promptStr := prompt
      promptLen := lne
      terminalHasEcho := echo
      execute := execute
      getCompletion := keyworld } held :=
  ⟨hs.cursor_le, hs.cmdlen_le, hs.guard, hs.bytes, hs.hist, hs.lines, hs.cur_le, hlne⟩

theorem Sane.print (hs : Sane Q s held) (str : List UInt8) : Sane Q (s.print str) held :=
  ⟨hs.cursor_le, hs.cmdlen_le, hs.guard, hs.bytes, hs.hist, hs.lines, hs.cur_le, hs.prompt_lt⟩

theorem Sane.with_cursor (hs : Sane Q s held) {cursor : ℕ} (h : cursor ≤ s.cmdlen) :
    Sane Q { s with cursor := cursor } held :=
  ⟨h, hs.cmdlen_le, hs.guard, hs.bytes, hs.hist, hs.lines, hs.cur_le, hs.prompt_lt⟩

theorem Sane.with_escape (hs : Sane Q s held) (seq : EscSeq) (escape : Bool) :
    Sane Q { s with escapeSeq := seq, escape := escape } held :=
  ⟨hs.cursor_le, hs.cmdlen_le, hs.guard, hs.bytes, hs.hist, hs.lines, hs.cur_le, hs.prompt_lt⟩

/-- A new line in the array, with what it needs. -/
theorem Sane.with_line (hs : Sane Q s held) {cmdline : Block commandLineLen} {cmdlen cursor : ℕ}
    (hcursor : cursor ≤ cmdlen) (hcmdlen : cmdlen ≤ 100) (hguard : cmdline.byte 100 = 0)
    (hbytes : ∀ k, k < 101 → Q (cmdline.byte k)) :
    Sane Q { s with cmdline := cmdline, cmdlen := cmdlen, cursor := cursor } held :=
  ⟨hcursor, hcmdlen, hguard, hbytes, hs.hist, hs.lines, hs.cur_le, hs.prompt_lt⟩

theorem slice_eq_drop_line {pos : ℕ} (h : pos ≤ s.cmdlen) :
    s.cmdline.slice pos (s.cmdlen - pos) = s.line.drop pos := by
  rw [MicrorlT.line, show s.cmdlen = pos + (s.cmdlen - pos) by omega, Block.slice_add,
    List.drop_left' Block.length_slice, Nat.zero_add, Nat.add_sub_cancel_left]

theorem slice_eq_take_line {pos : ℕ} (h : pos ≤ s.cmdlen) :
    s.cmdline.slice 0 pos = s.line.take pos := by
  rw [MicrorlT.line, show s.cmdlen = pos + (s.cmdlen - pos) by omega, Block.slice_add,
    List.take_left' Block.length_slice]

theorem mem_line {c : UInt8} (hs : Sane Q s held) (hc : c ∈ s.line) : Q c := by
  obtain ⟨k, hk, rfl⟩ := Block.mem_slice.1 hc
  have hle := hs.cmdlen_le
  exact hs.bytes _ (by omega)

theorem terminalPrintLine_eq (hs : Sane Q s held) {pos : ℕ} (h : pos ≤ s.cmdlen) (cursor : ℕ) :
    s.terminalPrintLine pos cursor = some (s.print (lineSeq s pos cursor)) := by
  have hread : s.cmdline.read pos (s.cmdlen - pos) = some (s.line.drop pos) := by
    rw [Block.read_of_le (by have := hs.cmdlen_le; rw [commandLineLen]; omega),
      slice_eq_drop_line h]
  simp only [MicrorlT.terminalPrintLine, MicrorlT.print_cmdline, MicrorlT.print_cmdlen, hread,
    Option.bind_eq_bind, Option.bind_some, MicrorlT.print_print]
  rw [terminalResetCursor_eq (by exact hs.prompt_lt)]
  simp only [Option.bind_some, terminalMoveCursor_eq, MicrorlT.print_print, MicrorlT.print_promptLen,
    lineSeq, List.append_assoc]
  rfl

/-! ## Insertion -/

/-- A space is stored as a zero, so that each word of the line is a string. -/
def zeroSpace (c : UInt8) : UInt8 := if c = 32 then 0 else c

/-- The editor with `text` inserted at the cursor, what stands behind it
moved on, and a NUL behind the line. -/
def inserted (s : MicrorlT) (text : List UInt8) : MicrorlT :=
  { s with
    cmdline := ((s.cmdline.overwrite (s.cursor + text.length) (s.line.drop s.cursor)).overwrite
      s.cursor (text.map zeroSpace)).set (s.cmdlen + text.length) 0
    cmdlen := s.cmdlen + text.length
    cursor := s.cursor + text.length }

theorem microrlInsertText_eq (hs : Sane Q s held) (hroom : s.cmdlen + text.length < 101) :
    s.microrlInsertText text = some (inserted s text, true) := by
  have hcur := hs.cursor_le
  have hread : s.cmdline.read s.cursor (s.cmdlen - s.cursor) = some (s.line.drop s.cursor) := by
    rw [Block.read_of_le (by rw [commandLineLen]; omega), slice_eq_drop_line hcur]
  have hlt : s.cmdlen + text.length < commandLineLen := hroom
  simp only [MicrorlT.microrlInsertText, hlt, if_true, diff_of_le hcur, Option.bind_eq_bind,
    Option.bind_some, hread]
  rw [Block.write_of_le (by simp; omega), Option.bind_some, Block.write_of_le (by simp; omega),
    Option.bind_some, Block.store_of_lt hlt]
  rfl

theorem microrlInsertText_full (h : ¬ s.cmdlen + text.length < 101) :
    s.microrlInsertText text = some (s, false) := if_neg h

theorem line_inserted (hs : Sane Q s held) :
    (inserted s text).line =
      s.line.take s.cursor ++ text.map zeroSpace ++ s.line.drop s.cursor := by
  have hcur := hs.cursor_le
  have hlen : (s.line.drop s.cursor).length = s.cmdlen - s.cursor := by simp
  have htext : (text.map zeroSpace).length = text.length := List.length_map ..
  show Block.slice _ 0 (s.cmdlen + text.length) = _
  rw [inserted, Block.slice_set_of_le (by omega), show
    s.cmdlen + text.length = s.cursor + text.length + (s.cmdlen - s.cursor) by omega,
    Block.slice_add, Block.slice_add, Nat.zero_add, Nat.zero_add]
  congr 2
  · rw [Block.slice_overwrite_of_le (by omega), Block.slice_overwrite_of_le (by omega),
      slice_eq_take_line hcur]
  · rw [← htext, Block.slice_overwrite]
  · rw [Block.slice_overwrite_of_ge (by omega), ← hlen, Block.slice_overwrite]

/-- A byte of the new line is a zero, an old byte or an inserted one. -/
theorem byte_overwrite_of_forall {n i : ℕ} {b : Block n} {bs : List UInt8} (hk : Q (b.byte k))
    (hbs : ∀ c ∈ bs, Q c) : Q ((b.overwrite i bs).byte k) := by
  rw [Block.byte_overwrite]
  split
  · rw [List.getD_eq_getElem?_getD, List.getElem?_eq_getElem (by omega), Option.getD_some]
    exact hbs _ (List.getElem_mem _)
  · exact hk

theorem byte_set_of_forall {n i : ℕ} {b : Block n} {v : UInt8} (hk : Q (b.byte k)) (hv : Q v) :
    Q ((b.set i v).byte k) := by
  rw [Block.byte_set]
  split
  · exact hv
  · exact hk

theorem Sane.inserted (hQ : Admits Q) (hs : Sane Q s held) (hroom : s.cmdlen + text.length < 101)
    (htext : ∀ c ∈ text, Q (zeroSpace c)) : Sane Q (inserted s text) held := by
  have hcur := hs.cursor_le
  refine hs.with_line (by omega) (by omega) ?_ (fun k hk => ?_)
  · rw [Block.byte_set]
    split
    · rfl
    · rw [Block.byte_overwrite, if_neg (by simp; omega), Block.byte_overwrite,
        if_neg (by simp; omega)]
      exact hs.guard
  · refine byte_set_of_forall (byte_overwrite_of_forall (byte_overwrite_of_forall (hs.bytes k hk) ?_)
      ?_) hQ.zero
    · exact fun c hc => mem_line hs (List.mem_of_mem_drop hc)
    · intro c hc
      obtain ⟨d, hd, rfl⟩ := List.mem_map.1 hc
      exact htext d hd

/-! ## Erasure -/

/-- What `terminal_backspace` prints: a column back, a space over it, and
back again. -/
def backspaceSeq : List UInt8 := [27, 91, 68, 32, 27, 91, 68]

/-- The editor with the character in front of the cursor removed. -/
def erased (s : MicrorlT) : MicrorlT :=
  { s with
    cmdline := (s.cmdline.overwrite (s.cursor - 1)
      (s.cmdline.slice s.cursor (s.cmdlen - s.cursor + 1))).set s.cmdlen 0
    cmdlen := s.cmdlen - 1
    cursor := s.cursor - 1 }

theorem microrlBackspace_eq (hs : Sane Q s held) (hpos : 0 < s.cursor) :
    s.microrlBackspace = some ((erased s).print backspaceSeq) := by
  have hcur := hs.cursor_le
  have hle := hs.cmdlen_le
  have hlt : s.cmdlen < commandLineLen := Nat.lt_succ_of_le hle
  simp only [MicrorlT.microrlBackspace, hpos, if_true, MicrorlT.terminalBackspace,
    MicrorlT.print_cmdline, MicrorlT.print_cmdlen, MicrorlT.print_cursor, diff_of_le hcur,
    Option.bind_eq_bind, Option.bind_some]
  rw [Block.read_of_le (by omega), Option.bind_some, Block.write_of_le (by simp; omega),
    Option.bind_some, Block.store_of_lt hlt]
  rfl

theorem microrlBackspace_zero (hzero : s.cursor = 0) : s.microrlBackspace = some s := by
  simp [MicrorlT.microrlBackspace, hzero]

theorem line_erased (hs : Sane Q s held) (hpos : 0 < s.cursor) :
    (erased s).line = s.line.take (s.cursor - 1) ++ s.line.drop s.cursor := by
  have hcur := hs.cursor_le
  show Block.slice _ 0 (s.cmdlen - 1) = _
  -- the copy takes along the cell behind the line, which is cut off again
  rw [erased, Block.slice_set_of_le (by omega), show
    s.cmdlen - 1 = s.cursor - 1 + (s.cmdlen - s.cursor) by omega, Block.slice_add, Nat.zero_add,
    Block.slice_overwrite_of_le (by omega), slice_eq_take_line (by omega),
    Block.slice_overwrite_take (by simp), Block.take_slice, slice_eq_drop_line hcur]

theorem Sane.erased (hQ : Admits Q) (hs : Sane Q s held) (hpos : 0 < s.cursor) :
    Sane Q (erased s) held := by
  have hcur := hs.cursor_le
  have hle := hs.cmdlen_le
  refine hs.with_line (by omega) (by omega) ?_ (fun k hk => ?_)
  · rw [Block.byte_set]
    split
    · rfl
    · rw [Block.byte_overwrite, if_neg (by simp; omega)]
      exact hs.guard
  · refine byte_set_of_forall (byte_overwrite_of_forall (hs.bytes k hk) fun c hc => ?_) hQ.zero
    obtain ⟨j, hj, rfl⟩ := Block.mem_slice.1 hc
    exact hs.bytes _ (by omega)

/-! ## The line replaced -/

/-- What no key changes: the prompt and its length, the echo and the
callbacks. -/
def MicrorlT.settings (s : MicrorlT) :
    List UInt8 × ℕ × Bool × Option (List (List UInt8)) × Bool :=
  (s.promptStr, s.promptLen, s.terminalHasEcho, s.getCompletion, s.execute)

/-- **What a key leaves**: an editor in range, the settings as they were,
and `str` printed. -/
structure Leaves (Q : UInt8 → Prop) (s : MicrorlT) (str : List UInt8) (s' : MicrorlT)
    (held : List (List UInt8)) : Prop where
  sane : Sane Q s' held
  settings : s'.settings = s.settings
  out : s'.out = s.out ++ str

variable {s' : MicrorlT} {str : List UInt8}

theorem Sane.leaves (hs : Sane Q s held) : Leaves Q s [] s held :=
  ⟨hs, rfl, (List.append_nil _).symm⟩

theorem Leaves.promptLen (h : Leaves Q s str s' held) : s'.promptLen = s.promptLen :=
  congrArg (fun x => x.2.1) h.settings

theorem Leaves.trans {t : MicrorlT} {str' : List UInt8} (h : Leaves Q s str s' held)
    (h' : Leaves Q s' str' t held) : Leaves Q s (str ++ str') t held :=
  ⟨h'.sane, h'.settings.trans h.settings, by rw [h'.out, h.out, List.append_assoc]⟩

theorem Leaves.print (h : Leaves Q s str s' held) (str' : List UInt8) :
    Leaves Q s (str ++ str') (s'.print str') held :=
  ⟨h.sane.print str', h.settings, by rw [MicrorlT.print_out, h.out, List.append_assoc]⟩

theorem Leaves.inserted (hQ : Admits Q) (hs : Sane Q s held)
    (hroom : s.cmdlen + text.length < 101) (htext : ∀ c ∈ text, Q (zeroSpace c)) :
    Leaves Q s [] (Microrl.inserted s text) held :=
  ⟨hs.inserted hQ hroom htext, rfl, (List.append_nil _).symm⟩

theorem Leaves.erased (hQ : Admits Q) (hs : Sane Q s held) (hpos : 0 < s.cursor) :
    Leaves Q s backspaceSeq ((Microrl.erased s).print backspaceSeq) held :=
  ⟨(hs.erased hQ hpos).print backspaceSeq, rfl, rfl⟩

/-- The loop of ^U removes the characters in front of the cursor. -/
theorem killToBegin_eq (hQ : Admits Q) (hs : Sane Q s held) {fuel : ℕ} (hfuel : s.cursor < fuel) :
    ∃ s', MicrorlT.killToBegin fuel s = some s' ∧
      Leaves Q s (List.replicate s.cursor backspaceSeq).flatten s' held ∧
      s'.cursor = 0 ∧ s'.line = s.line.drop s.cursor := by
  induction fuel generalizing s with
  | zero => omega
  | succ fuel ih =>
    unfold MicrorlT.killToBegin
    by_cases hpos : 0 < s.cursor
    · have hcur := hs.cursor_le
      have hfirst := Leaves.erased hQ hs hpos
      obtain ⟨s', hkill, hleaves, hcursor, hline⟩ :=
        ih hfirst.sane (by show s.cursor - 1 < fuel; omega)
      refine ⟨s', ?_, ?_, hcursor, ?_⟩
      · simp only [gt_iff_lt, hpos, if_true, microrlBackspace_eq hs hpos, Option.bind_eq_bind,
          Option.bind_some, hkill]
      · have hrep : List.replicate s.cursor backspaceSeq =
            backspaceSeq :: List.replicate (s.cursor - 1) backspaceSeq := by
          rw [← List.replicate_succ, Nat.sub_add_cancel hpos]
        rw [hrep, List.flatten_cons]
        exact hfirst.trans hleaves
      · rw [hline, MicrorlT.print_line, line_erased hs hpos]
        exact List.drop_left' (by
          rw [List.length_take, MicrorlT.length_line]
          show min (s.cursor - 1) s.cmdlen = s.cursor - 1
          omega)
    · have hzero : s.cursor = 0 := by omega
      rw [if_neg hpos]
      refine ⟨s, rfl, ?_, hzero, by simp [hzero]⟩
      rw [hzero]
      exact hs.leaves

theorem Log.restore_eq_none {dir : Dir} (h : (Log.restore held k dir).2 = none) :
    (Log.restore held k dir).1 = k := by
  cases dir with
  | up =>
    simp only [Log.restore] at h ⊢
    split
    · rw [if_pos ‹_›] at h
      cases h
    · rfl
  | down => cases h

theorem Log.restore_eq_some {dir : Dir} (h : (Log.restore held k dir).2 = some text) :
    ∃ j, text = recent held j := by
  cases dir with
  | up =>
    simp only [Log.restore] at h
    split at h
    · exact ⟨k + 1, (Option.some.inj h).symm⟩
    · cases h
  | down => exact ⟨k - 1, (Option.some.inj h).symm⟩

/-- The bytes of a restored line are those of the text, or were in the array
before. -/
theorem Restored.byte (hQ : Admits Q) (hs : Sane Q s held) {cmdline : Block commandLineLen}
    {ret : Option ℕ} (h : Restored s.cmdline cmdline ret (some text)) (htext : ∀ c ∈ text, Q c)
    (hk : k < 101) : Q (cmdline.byte k) := by
  obtain ⟨-, hslice, hrest⟩ := h
  by_cases hlt : k < text.length
  · refine htext _ ?_
    rw [← hslice]
    exact Block.mem_slice.2 ⟨k, hlt, by rw [Nat.zero_add]⟩
  · rcases hrest k (by omega) with hzero | hold
    · rw [hzero]
      exact hQ.zero
    · rw [hold]
      exact hs.bytes k hk

/-- **A line of the history taken over**: the line is replaced, and then
printed from the prompt on. -/
theorem histSearch_eq (hQ : Admits Q) (hs : Sane Q s held) (dir : Dir) :
    s.histSearch dir = some s ∨ ∃ s₁, Leaves Q s [] s₁ held ∧
      s.histSearch dir = some (s₁.print (resetSeq s₁.promptLen ++ lineSeq s₁ 0 s₁.cursor)) := by
  obtain ⟨cmdline, ret, hrestore, hrestored⟩ := histRestoreLine_eq hs.hist hs.cur_le s.cmdline dir
  simp only [MicrorlT.histSearch, hrestore, Option.bind_eq_bind, Option.bind_some]
  cases hfound : (Log.restore held s.ringHist.cur dir).2 with
  | none =>
    rw [hfound] at hrestored
    obtain ⟨rfl, rfl⟩ := hrestored
    rw [Log.restore_eq_none hfound]
    exact Or.inl rfl
  | some text =>
    rw [hfound] at hrestored
    obtain ⟨j, rfl⟩ := Log.restore_eq_some hfound
    have hlen := hs.hist.sound.length_recent j
    have htext : ∀ c ∈ recent held j, Q c := by
      intro c hc
      rcases recent_eq_nil_or_mem held j with hnil | hmem
      · rw [hnil] at hc
        cases hc
      · exact hs.lines _ hmem c hc
    have hbyte : ∀ k, k < 101 → Q (cmdline.byte k) := fun k hk => hrestored.byte hQ hs htext hk
    obtain ⟨rfl, -, hrest⟩ := hrestored
    have hsane : Sane Q { s with
        ringHist := { s.ringHist with cur := (Log.restore held s.ringHist.cur dir).1 }
        cmdline := cmdline.set (recent held j).length 0
        cmdlen := (recent held j).length
        cursor := (recent held j).length } held := by
      refine ⟨Nat.le_refl _, by simp only; omega, ?_, fun k hk => ?_, hs.hist.with_cur _, hs.lines,
        Log.restore_le hs.cur_le dir, hs.prompt_lt⟩
      · simp only [Block.byte_set]
        rw [if_neg (by omega)]
        -- the last cell lies behind every line of the history
        rcases hrest 100 (by omega) with hzero | hold
        · exact hzero
        · rw [hold, hs.guard]
      · exact byte_set_of_forall (hbyte k hk) hQ.zero
    refine Or.inr ⟨_, ⟨hsane, rfl, (List.append_nil _).symm⟩, ?_⟩
    simp only [Block.store_of_lt (show (recent held j).length < commandLineLen by
      rw [commandLineLen]; omega), Option.bind_some]
    rw [terminalResetCursor_eq hsane.prompt_lt, Option.bind_some,
      terminalPrintLine_eq (hsane.print _) (Nat.zero_le _)]
    simp only [MicrorlT.print_print]
    rfl

end

end Microrl

end SlipBoard
