import Mathlib.Logic.Function.Basic
import Mathlib.Data.List.Basic
/-!
# A terminal line

The line of an ANSI terminal the cursor is in, without a right margin.
`feed` interprets what is sent to it: printable characters, the control
characters CR and LF, and of the escape sequences `CSI n C`, `CSI n D`,
`CSI K` and the colours `CSI … m`. A line on which everything stands
side by side from the first column on is the list of its characters
(`line`); what the terminal makes of a sequence there is stated by one
equation each.
-/

namespace SlipBoard

/-- How far an escape sequence has come: none is open, ESC alone, or `CSI`
with the parameter that is being read. -/
inductive Mode
  | ground
  | esc
  | csi (arg : Option ℕ)

/-- The line of the terminal: its cells, a blank one holding nothing, the
column of the cursor, and the mode. -/
structure Term where
  row : ℕ → Option UInt8
  col : ℕ
  mode : Mode

/-- A character that takes a column: neither a control character nor DEL. -/
def Printable (c : UInt8) : Prop := 31 < c ∧ c ≠ 127

instance (c : UInt8) : Decidable (Printable c) := inferInstanceAs (Decidable (_ ∧ _))

/-- A decimal digit. -/
def Digit (c : UInt8) : Prop := 48 ≤ c ∧ c ≤ 57

instance (c : UInt8) : Decidable (Digit c) := inferInstanceAs (Decidable (_ ∧ _))

namespace Term

/-- A character overwrites the cell of the cursor and moves the cursor on by
one column. -/
def put (t : Term) (c : UInt8) : Term :=
  { t with row := Function.update t.row t.col (some c), col := t.col + 1 }

/-- The end of a control sequence. A move without a parameter is by one
column, and stops at the first. -/
def control (t : Term) (arg : Option ℕ) (c : UInt8) : Term :=
  if c = 67 then { t with col := t.col + arg.getD 1 }
  else if c = 68 then { t with col := t.col - arg.getD 1 }
  else if c = 75 then { t with row := fun k => if k < t.col then t.row k else none }
  else t

/-- What the terminal makes of one byte: outside an escape sequence it is
shown or obeyed, inside one it goes on with the sequence. -/
def feedByte (t : Term) (c : UInt8) : Term :=
  match t.mode with
  | .ground =>
    if c = 27 then { t with mode := .esc }
    else if c = 10 then { t with row := fun _ => none }
    else if c = 13 then { t with col := 0 }
    else if Printable c then t.put c
    else t
  | .esc => { t with mode := if c = 91 then .csi none else .ground }
  | .csi arg =>
    if Digit c then { t with mode := .csi (some (10 * arg.getD 0 + (c.toNat - 48))) }
    else if c = 59 then { t with mode := .csi none }
    else { t with mode := .ground }.control arg c

/-- What a terminal makes of a sequence of bytes, one after the other. -/
def feed (t : Term) (bs : List UInt8) : Term := bs.foldl feedByte t

variable {t : Term} {bs bs' cells text : List UInt8} {c : UInt8} {col n : ℕ}

@[simp] theorem feed_nil : t.feed [] = t := rfl

@[simp] theorem feed_cons : t.feed (c :: bs) = (t.feedByte c).feed bs := rfl

@[simp] theorem feed_append : t.feed (bs ++ bs') = (t.feed bs).feed bs' := List.foldl_append

/-- **A line** that holds `cells` from its first column on, with the cursor
at the column `col`. -/
def line (cells : List UInt8) (col : ℕ) : Term := ⟨fun k => cells[k]?, col, .ground⟩

/-! ## Characters -/

theorem feedByte_ground (hmode : t.mode = .ground) (hc : c ≠ 27) :
    (t.feedByte c).mode = .ground := by
  unfold feedByte
  rw [hmode]
  simp only [hc, if_false]
  split
  · rfl
  split
  · rfl
  split
  · exact hmode
  · exact hmode

/-- Bytes without an escape leave no sequence open, where none was. -/
theorem feed_ground (hmode : t.mode = .ground) (h : 27 ∉ bs) : (t.feed bs).mode = .ground := by
  induction bs generalizing t with
  | nil => exact hmode
  | cons c bs ih =>
    rw [List.mem_cons, not_or] at h
    exact ih (feedByte_ground hmode (Ne.symm h.1)) h.2

/-- A new line is blank, and CR goes to its first column, whatever was on
the line before. -/
theorem feed_newline (hmode : t.mode = .ground) : t.feed [10, 13] = line [] 0 := by
  simp [feedByte, hmode, line]

theorem line_feedByte (hc : Printable c) : (line cells col).feedByte c = (line cells col).put c := by
  obtain ⟨hlow, hdel⟩ := hc
  have hne : ∀ d : UInt8, d ≤ 31 → c ≠ d := by
    rintro d hd rfl
    exact absurd hlow (UInt8.not_lt.2 hd)
  show (if c = 27 then _ else if c = 10 then _ else if c = 13 then _ else if Printable c then _ else _) = _
  rw [if_neg (hne 27 (by decide)), if_neg (hne 10 (by decide)), if_neg (hne 13 (by decide)),
    if_pos ⟨hlow, hdel⟩]

/-- A character behind the others makes the line longer by one. -/
theorem line_put_end : (line cells cells.length).put c = line (cells ++ [c]) (cells.length + 1) := by
  refine congrArg (fun row => Term.mk row _ _) (funext fun k => ?_)
  show Function.update (fun k => cells[k]?) cells.length (some c) k = (cells ++ [c])[k]?
  rw [Function.update_apply]
  split
  · rename_i hk
    rw [hk, List.getElem?_concat_length]
  · rename_i hk
    by_cases hlt : k < cells.length
    · rw [List.getElem?_append_left hlt]
    · rw [List.getElem?_eq_none (by omega), List.getElem?_eq_none (by simp; omega)]

/-- A character over another takes its place, and the cursor moves on. -/
theorem line_put_over (h : col < cells.length) :
    (line cells col).put c = line (cells.set col c) (col + 1) := by
  refine congrArg (fun row => Term.mk row _ _) (funext fun k => ?_)
  show Function.update (fun k => cells[k]?) col (some c) k = (cells.set col c)[k]?
  rw [Function.update_apply, List.getElem?_set]
  by_cases hk : k = col
  · rw [if_pos hk, if_pos hk.symm, if_pos h]
  · rw [if_neg hk, if_neg (Ne.symm hk)]

/-- **A text** of printable characters stands behind what stands there, and
the cursor behind it. -/
theorem line_feed_text (h : ∀ c ∈ text, Printable c) :
    (line cells cells.length).feed text = line (cells ++ text) (cells ++ text).length := by
  induction text generalizing cells with
  | nil => rw [List.append_nil, feed_nil]
  | cons c text ih =>
    have hend : (line (cells ++ [c]) (cells.length + 1)).feed text =
        (line (cells ++ [c]) (cells ++ [c]).length).feed text := by
      rw [List.length_append, List.length_singleton]
    rw [feed_cons, line_feedByte (h c List.mem_cons_self), line_put_end, hend,
      ih fun d hd => h d (List.mem_cons_of_mem c hd), List.append_assoc, List.singleton_append]

/-! ## Escape sequences -/

/-- The number that a string of digits stands for, as the parameter of a
control sequence is read. -/
def decimal (digits : List UInt8) : ℕ := digits.foldl (fun v c => 10 * v + (c.toNat - 48)) 0

/-- A parameter is read digit by digit, and goes on from what has been read
of it. -/
theorem feed_digits {row : ℕ → Option UInt8} {digits : List UInt8} (h : ∀ c ∈ digits, Digit c) (v : ℕ) :
    (Term.mk row col (.csi (some v))).feed digits =
      ⟨row, col, .csi (some (digits.foldl (fun v c => 10 * v + (c.toNat - 48)) v))⟩ := by
  induction digits generalizing v with
  | nil => rfl
  | cons c digits ih =>
    have hc : (Term.mk row col (.csi (some v))).feedByte c =
        ⟨row, col, .csi (some (10 * v + (c.toNat - 48)))⟩ := if_pos (h c List.mem_cons_self)
    rw [feed_cons, hc, ih fun d hd => h d (List.mem_cons_of_mem c hd), List.foldl_cons]

/-- **A control sequence with a parameter** does what its last byte asks
for, as often as its digits say. -/
theorem line_feed_csi {digits : List UInt8} (h : ∀ c ∈ digits, Digit c) (hne : digits ≠ [])
    (hc : ¬ Digit c) (hsep : c ≠ 59) :
    (line cells col).feed ([27, 91] ++ digits ++ [c]) =
      (line cells col).control (some (decimal digits)) c := by
  cases digits with
  | nil => exact absurd rfl hne
  | cons d digits =>
    have hd : (Term.mk (fun k => cells[k]?) col (.csi none)).feedByte d =
        ⟨fun k => cells[k]?, col, .csi (some (10 * 0 + (d.toNat - 48)))⟩ :=
      if_pos (h d List.mem_cons_self)
    have hcsi : (line cells col).feed [27, 91] = ⟨fun k => cells[k]?, col, .csi none⟩ := rfl
    rw [feed_append, feed_append, hcsi]
    show ((Term.feedByte _ d).feed digits).feedByte c = _
    rw [hd, feed_digits fun e he => h e (List.mem_cons_of_mem d he)]
    show (if Digit c then _ else if c = 59 then _ else _) = _
    rw [if_neg hc, if_neg hsep]
    rfl

theorem line_feed_right {digits : List UInt8} (h : ∀ c ∈ digits, Digit c) (hne : digits ≠ []) :
    (line cells col).feed ([27, 91] ++ digits ++ [67]) = line cells (col + decimal digits) := by
  rw [line_feed_csi h hne (by decide) (by decide)]
  rfl

theorem line_feed_left {digits : List UInt8} (h : ∀ c ∈ digits, Digit c) (hne : digits ≠ []) :
    (line cells col).feed ([27, 91] ++ digits ++ [68]) = line cells (col - decimal digits) := by
  rw [line_feed_csi h hne (by decide) (by decide)]
  rfl

/-- `CSI K` erases the line from the cursor on, and the cursor stays. -/
theorem line_feed_erase : (line cells col).feed [27, 91, 75] = line (cells.take col) col := by
  refine congrArg (fun row => Term.mk row _ _) (funext fun k => ?_)
  show (if k < col then cells[k]? else none) = (cells.take col)[k]?
  rw [List.getElem?_take]

/-- One column back, a space, and back again: the character in front of the
cursor is wiped out. -/
theorem line_feed_backspace (hpos : 0 < col) (hcol : col ≤ cells.length) :
    (line cells col).feed [27, 91, 68, 32, 27, 91, 68] =
      line (cells.set (col - 1) 32) (col - 1) := by
  have hback : (line cells col).feed [27, 91, 68] = line cells (col - 1) := rfl
  have hspace : (line cells (col - 1)).feed [32] = line (cells.set (col - 1) 32) (col - 1 + 1) := by
    rw [feed_cons, line_feedByte (by decide), line_put_over (by omega), feed_nil]
  have hagain : (line (cells.set (col - 1) 32) (col - 1 + 1)).feed [27, 91, 68] =
      line (cells.set (col - 1) 32) (col - 1) := rfl
  rw [show [27, 91, 68, 32, 27, 91, 68] = [27, 91, 68] ++ ([32] ++ ([27, 91, 68] : List UInt8)) from rfl,
    feed_append, hback, feed_append, hspace, hagain]

end Term

/-! ## Coloured texts -/

/-- A part of a coloured text: a character, or a colour sequence, which
takes no column. -/
inductive Piece
  | glyph (c : UInt8) (h : Printable c)
  | colour (params : List UInt8) (h : ∀ c ∈ params, Digit c ∨ c = 59)

/-- What is sent for it: the character, or the sequence with its parameters. -/
def Piece.bytes : Piece → List UInt8
  | .glyph c _ => [c]
  | .colour params _ => [27, 91] ++ params ++ [109]

/-- What is seen of it: a colour shows nothing. -/
def Piece.glyphs : Piece → List UInt8
  | .glyph c _ => [c]
  | .colour _ _ => []

/-- A text with colours. -/
abbrev Coloured := List Piece

/-- What is sent for a text, piece by piece. -/
def Coloured.bytes (text : Coloured) : List UInt8 := text.flatMap Piece.bytes

/-- What is seen of a text: its characters, without the colours. -/
def Coloured.glyphs (text : Coloured) : List UInt8 := text.flatMap Piece.glyphs

namespace Term

variable {cells : List UInt8}

/-- The parameters of a colour are passed over, and leave line and cursor
alone. -/
theorem feed_params (row : ℕ → Option UInt8) (col : ℕ) {params : List UInt8}
    (h : ∀ c ∈ params, Digit c ∨ c = 59) (arg : Option ℕ) :
    ∃ arg', (Term.mk row col (.csi arg)).feed params = ⟨row, col, .csi arg'⟩ := by
  induction params generalizing arg with
  | nil => exact ⟨arg, rfl⟩
  | cons c params ih =>
    have hrest := ih fun d hd => h d (List.mem_cons_of_mem c hd)
    by_cases hc : Digit c
    · obtain ⟨arg', h'⟩ := hrest (some (10 * arg.getD 0 + (c.toNat - 48)))
      refine ⟨arg', ?_⟩
      rw [feed_cons, ← h']
      exact congrArg (fun t => Term.feed t params) (if_pos hc)
    · obtain ⟨arg', h'⟩ := hrest none
      have hsep : c = 59 := (h c List.mem_cons_self).resolve_left hc
      subst hsep
      exact ⟨arg', h'⟩

theorem line_feed_piece (p : Piece) :
    (line cells cells.length).feed p.bytes = line (cells ++ p.glyphs) (cells ++ p.glyphs).length := by
  cases p with
  | glyph c h => exact line_feed_text fun d hd => List.mem_singleton.1 hd ▸ h
  | colour params h =>
    obtain ⟨arg, hparams⟩ := feed_params (fun k => cells[k]?) cells.length h none
    have hcsi : (line cells cells.length).feed [27, 91] =
        ⟨fun k => cells[k]?, cells.length, .csi none⟩ := rfl
    rw [Piece.bytes, Piece.glyphs, List.append_nil, feed_append, feed_append, hcsi, hparams]
    rfl

/-- **A coloured text** shows its characters; the sequences that set the
colour take no cell. -/
theorem line_feed_coloured (text : Coloured) :
    (line cells cells.length).feed text.bytes =
      line (cells ++ text.glyphs) (cells ++ text.glyphs).length := by
  induction text generalizing cells with
  | nil => exact congrArg (fun cs => line cs cs.length) (List.append_nil cells).symm
  | cons p text ih =>
    rw [Coloured.bytes, List.flatMap_cons, feed_append, line_feed_piece, Coloured.glyphs,
      List.flatMap_cons, ← List.append_assoc]
    exact ih

end Term

end SlipBoard
