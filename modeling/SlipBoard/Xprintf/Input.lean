import SlipBoard.Xprintf.Model.Input
import SlipBoard.Xprintf.Format
import Mathlib.Data.List.Induction
import Mathlib.Tactic.IntervalCases
/-!
# Xprintf — what is printed is read back

`xatoi` reads a numeral in the form that `xprintf` prints it in, with the
prefix of its radix: `%d` with its sign, `%u`, `0x%x` and `0x%X`, `0%o`,
and `0b%b` of a number that fits the sixteen characters `xprintf` has for
one. Without the prefix a numeral is read as a decimal, or not at all. So a
line of numbers with a blank in front of each is read back one by one
(`xatoi_xvprintf`).

`xgets` keeps what is visible and has room, takes back what is deleted,
and stays inside its buffer (`xgets_eq`).
-/

namespace SlipBoard

namespace Xprintf

variable {r c : UInt8} {s : Bool} {str rest : List UInt8}

/-! ## Digits -/

/-- The value of a character as `xatoi` counts it, letters in either case
from ten on. Whether it is a digit of the base is tested behind. -/
def charValue (c : UInt8) : Option UInt8 :=
  let c := (if c ≥ 97 then c - 0x20 else c) - 48
  if c ≥ 17 then if c - 7 ≤ 9 then none else some (c - 7) else some c

theorem xatoiDigit_eq (r c : UInt8) :
    xatoiDigit r c = (charValue c).bind fun d => if d ≥ r then none else some d := by
  unfold xatoiDigit charValue
  dsimp only
  generalize (if c ≥ 97 then c - 0x20 else c) - 48 = d
  by_cases hletter : d ≥ 17
  · rw [if_pos hletter, if_pos hletter]
    by_cases hgap : d - 7 ≤ 9
    · rw [if_pos hgap, if_pos hgap]
      rfl
    · rw [if_neg hgap, if_neg hgap]
      rfl
  · rw [if_neg hletter, if_neg hletter]
    rfl

/-- The character of a digit, as `xvprintf` stores it for the type `c`. -/
def digitChar (c : UInt8) (d : ℕ) : UInt8 :=
  UInt8.ofNat ((if d > 9 then d + (if c = 120 then 0x27 else 0x07) else d) + 48)

theorem charValue_digitChar (c : UInt8) {d : ℕ} (hd : d < 16) :
    charValue (digitChar c d) = some (UInt8.ofNat d) ∧ digitChar c d > 32 := by
  unfold digitChar
  by_cases hc : c = 120
  · simp only [if_pos hc]
    interval_cases d <;> decide
  · simp only [if_neg hc]
    interval_cases d <;> decide

/-- A digit that is printed is read as the digit, in either case of its
letter. -/
theorem xatoiLoop_digitChar (s : Bool) (c : UInt8) {d : ℕ} (hd : d < r.toNat) (hr : r.toNat ≤ 16)
    (str : List UInt8) (val : UInt32) :
    xatoiLoop s r (digitChar c d :: str) val =
      xatoiLoop s r str (val * r.toUInt32 + UInt32.ofNat d) := by
  obtain ⟨hvalue, hvisible⟩ := charValue_digitChar c (show d < 16 by omega)
  have hlt : ¬ UInt8.ofNat d ≥ r := by
    rw [ge_iff_le, UInt8.le_iff_toNat_le, UInt8.toNat_ofNat']
    omega
  have hdigit : xatoiDigit r (digitChar c d) = some (UInt8.ofNat d) := by
    rw [xatoiDigit_eq, hvalue, Option.bind_some, if_neg hlt]
  have hcast : (UInt8.ofNat d).toUInt32 = UInt32.ofNat d := by
    refine UInt32.toNat_inj.1 ?_
    rw [UInt8.toNat_toUInt32, UInt8.toNat_ofNat', UInt32.toNat_ofNat']
    omega
  rw [xatoiLoop, if_pos hvisible, hdigit]
  show xatoiLoop s r str (val * r.toUInt32 + (UInt8.ofNat d).toUInt32) = _
  rw [hcast]

/-- At a blank, or at the NUL, the numeral is over. -/
theorem xatoiLoop_end (s : Bool) (r : UInt8) (h : str.headD 0 ≤ 32) (val : UInt32) :
    xatoiLoop s r str val = ⟨true, if s then 0 - val else val, str⟩ := by
  cases str with
  | nil => rfl
  | cons c str =>
    have hend : ¬ c > 32 := UInt8.not_lt.2 h
    rw [xatoiLoop, if_neg hend]

theorem digits_succ (R left v : ℕ) (c : UInt8) :
    digits R c (left + 1) v =
      digitChar c (v % R) :: if v / R ≠ 0 then digits R c left (v / R) else [] := rfl

/-- **A numeral printed is read**, digit by digit, up to what stands behind
it, in every radix from 2 to 16. -/
theorem xatoiLoop_digits (s : Bool) (c : UInt8) (hr : 2 ≤ r.toNat ∧ r.toNat ≤ 16) {left : ℕ} :
    ∀ {v : ℕ} (str : List UInt8), v < r.toNat ^ left →
      xatoiLoop s r ((digits r.toNat c left v).reverse ++ str) 0 =
        xatoiLoop s r str (UInt32.ofNat v) := by
  induction left with
  | zero =>
    intro v str hv
    rw [Nat.pow_zero, Nat.lt_one_iff] at hv
    subst hv
    rfl
  | succ left ih =>
    intro v str hv
    have hmod : v % r.toNat < r.toNat := Nat.mod_lt _ (by omega)
    have hquot : v / r.toNat < r.toNat ^ left := by
      rw [Nat.div_lt_iff_lt_mul (by omega), ← Nat.pow_succ]
      exact hv
    -- the digits in front of the last are those of the quotient, or none
    have hfront : xatoiLoop s r ((if v / r.toNat ≠ 0 then digits r.toNat c left (v / r.toNat)
        else []).reverse ++ digitChar c (v % r.toNat) :: str) 0 =
        xatoiLoop s r (digitChar c (v % r.toNat) :: str) (UInt32.ofNat (v / r.toNat)) := by
      by_cases hzero : v / r.toNat = 0
      · rw [if_neg (not_not_intro hzero), hzero]
        rfl
      · rw [if_pos hzero]
        exact ih _ hquot
    have hradix : r.toUInt32 = UInt32.ofNat r.toNat := by
      refine UInt32.toNat_inj.1 ?_
      rw [UInt8.toNat_toUInt32, UInt32.toNat_ofNat']
      omega
    rw [digits_succ, List.reverse_cons, List.append_assoc, List.singleton_append, hfront,
      xatoiLoop_digitChar s c hmod hr.2, hradix, ← UInt32.ofNat_mul, ← UInt32.ofNat_add,
      Nat.div_add_mod']

/-- The first digit of a numeral, which is 0 for 0 alone. -/
theorem digits_head (c : UInt8) {R : ℕ} (hR : 2 ≤ R) {left : ℕ} : ∀ {v : ℕ}, v < R ^ (left + 1) →
    ∃ d tail, (digits R c (left + 1) v).reverse = digitChar c d :: tail ∧ d < R ∧
      (v ≠ 0 → d ≠ 0) := by
  induction left with
  | zero =>
    intro v hv
    rw [Nat.zero_add, Nat.pow_one] at hv
    refine ⟨v, [], ?_, hv, id⟩
    rw [digits_succ, Nat.mod_eq_of_lt hv, if_neg (not_not_intro (Nat.div_eq_of_lt hv))]
    rfl
  | succ left ih =>
    intro v hv
    by_cases hzero : v / R = 0
    · have hlt : v < R := by
        rw [Nat.div_eq_zero_iff] at hzero
        omega
      refine ⟨v, [], ?_, hlt, id⟩
      rw [digits_succ, Nat.mod_eq_of_lt hlt, if_neg (not_not_intro hzero)]
      rfl
    · have hquot : v / R < R ^ (left + 1) := by
        rw [Nat.div_lt_iff_lt_mul (by omega), ← Nat.pow_succ]
        exact hv
      obtain ⟨d, tail, hdigits, hlt, hne⟩ := ih hquot
      refine ⟨d, tail ++ [digitChar c (v % R)], ?_, hlt, fun _ => hne hzero⟩
      rw [digits_succ, if_pos hzero, List.reverse_cons, hdigits]
      rfl

/-! ## xatoi -/

theorem xatoi_skip (k : ℕ) (str : List UInt8) :
    xatoi (List.replicate k 32 ++ str) = xatoi str := by
  induction k with
  | zero => rfl
  | succ k ih =>
    rw [List.replicate_succ, List.cons_append, ← ih]
    rfl

/-- The sign that is printed: a minus, or nothing. -/
def sign (s : Bool) : List UInt8 := if s then [45] else []

theorem xatoi_zero (s : Bool) (h : rest.headD 0 ≤ 32) :
    xatoi (sign s ++ 48 :: rest) = ⟨true, 0, rest⟩ := by
  have hx : rest.headD 0 ≠ 120 := by
    rintro hx
    rw [hx] at h
    exact absurd h (by decide)
  have hb : rest.headD 0 ≠ 98 := by
    rintro hb
    rw [hb] at h
    exact absurd h (by decide)
  have hbody : xatoi (sign s ++ 48 :: rest) = if rest.headD 0 = 120 then xatoiLoop s 16 rest.tail 0
      else if rest.headD 0 = 98 then xatoiLoop s 2 rest.tail 0
      else if rest.headD 0 ≤ 32 then ⟨true, 0, rest⟩
      else if rest.headD 0 < 48 ∨ rest.headD 0 > 57 then ⟨false, 0, rest⟩
      else xatoiLoop s 8 rest 0 := by
    cases s <;> rfl
  rw [hbody, if_neg hx, if_neg hb, if_pos h]

theorem xatoi_decimal (s : Bool) (c : UInt8) {d : ℕ} (hd : d < 10) (hne : d ≠ 0)
    (str : List UInt8) :
    xatoi (sign s ++ digitChar c d :: str) = xatoiLoop s 10 (digitChar c d :: str) 0 := by
  have hdigit : digitChar c d = UInt8.ofNat (d + 48) := by
    rw [digitChar, if_neg (by omega)]
  rw [hdigit]
  interval_cases d
  · exact absurd rfl hne
  all_goals cases s <;> rfl

theorem xatoi_oct (c : UInt8) {d : ℕ} (hd : d < 8) (str : List UInt8) :
    xatoi (48 :: digitChar c d :: str) = xatoiLoop false 8 (digitChar c d :: str) 0 := by
  have hdigit : digitChar c d = UInt8.ofNat (d + 48) := by
    rw [digitChar, if_neg (by omega)]
  rw [hdigit]
  interval_cases d <;> rfl

/-- **A decimal numeral** with its sign, up to a blank or the end, is the
number it stands for. -/
theorem xatoi_digits (s : Bool) (c : UInt8) {v : ℕ} (hv : v < 10 ^ 16)
    (h : rest.headD 0 ≤ 32) :
    xatoi (sign s ++ ((digits 10 c 16 v).reverse ++ rest)) =
      ⟨true, if s then 0 - UInt32.ofNat v else UInt32.ofNat v, rest⟩ := by
  by_cases hzero : v = 0
  · subst hzero
    show xatoi (sign s ++ 48 :: rest) = _
    rw [xatoi_zero s h]
    cases s <;> rfl
  · have hread := xatoiLoop_digits (r := 10) s c (by decide) rest hv
    obtain ⟨d, tail, hdigits, hd, hne⟩ := digits_head c (R := 10) (by decide) hv
    change xatoiLoop s 10 ((digits 10 c 16 v).reverse ++ rest) 0 = _ at hread
    rw [hdigits, List.cons_append] at hread ⊢
    rw [xatoi_decimal s c hd (hne hzero), hread, xatoiLoop_end s 10 h]

/-! ## A line of numbers -/

/-- The forms `xatoi` knows, as sequences of `xvprintf`: `%d`, `%u`,
`0x%x`, `0x%X`, `0%o` and `0b%b`. -/
inductive Form
  | signed
  | unsigned
  | hex
  | heX
  | oct
  | bin
  deriving DecidableEq

namespace Form

/-- What stands in front of the sequence, which tells `xatoi` the base
again. -/
def lead : Form → List UInt8
  | signed | unsigned => []
  | hex | heX => [48, 120]
  | oct => [48]
  | bin => [48, 98]

/-- The type of the sequence, which is its last character. -/
def type : Form → UInt8
  | signed => 100
  | unsigned => 117
  | hex => 120
  | heX => 88
  | oct => 111
  | bin => 98

def radix : Form → UInt8
  | signed | unsigned => 10
  | hex | heX => 16
  | oct => 8
  | bin => 2

/-- What the sixteen digits of `xvprintf` are enough for: only a binary
numeral may have more. -/
def Fits (form : Form) (v : UInt32) : Prop := v.toNat < form.radix.toNat ^ 16

instance (form : Form) (v : UInt32) : Decidable (form.Fits v) :=
  inferInstanceAs (Decidable (_ < _))

theorem kind_type (form : Form) : kind form.type = .number form.radix.toNat (form = signed) := by
  cases form <;> rfl

end Form

/-- A number of a line, and the width it is printed with. -/
structure Entry where
  form : Form
  width : ℕ
  v : UInt32
  deriving DecidableEq

namespace Entry

variable {e : Entry}

/-- The width in the format, where there is one: behind a `0` where the
number has a lead. -/
def widthText (e : Entry) : List UInt8 :=
  if e.width = 0 then [] else if e.form.lead = [] then decimal e.width else 48 :: decimal e.width

/-- The format of an entry: a blank, what stands in front of the sequence,
and the sequence with its width. -/
def fmt (e : Entry) : List UInt8 := 32 :: e.form.lead ++ 37 :: e.widthText ++ [e.form.type]

def field (e : Entry) : Field := ⟨e.form.lead ≠ [] ∧ e.width ≠ 0, false, e.width⟩

/-- What is printed for an entry: a blank, what stands in front, and the
numeral in its field. -/
def text (e : Entry) : List UInt8 :=
  32 :: e.form.lead ++ e.field.fill (if e.field.zero then 48 else 32)
    (numeral e.form.radix.toNat (e.form = .signed) e.form.type e.v)

end Entry

/-- The width is read digit by digit, up to the type of the sequence. -/
theorem width_digits {cs : List Char} (hcs : ∀ c ∈ cs, c.isDigit) (rest : List UInt8) : ∀ (w : ℕ),
    width w ((cs.map fun c => UInt8.ofNat c.toNat) ++ rest) =
      width (Nat.ofDigitChars 10 cs w) rest := by
  induction cs with
  | nil =>
    intro w
    rfl
  | cons c cs ih =>
    intro w
    have hdigit := hcs c List.mem_cons_self
    rw [Char.isDigit, Bool.and_eq_true, decide_eq_true_eq, decide_eq_true_eq] at hdigit
    have hlow : 48 ≤ c.toNat := hdigit.1
    have hhigh : c.toNat ≤ 57 := hdigit.2
    have hbyte : (UInt8.ofNat c.toNat).toNat = c.toNat := by
      rw [UInt8.toNat_ofNat']
      omega
    have hrange : 48 ≤ UInt8.ofNat c.toNat ∧ UInt8.ofNat c.toNat ≤ 57 := by
      rw [UInt8.le_iff_toNat_le, UInt8.le_iff_toNat_le, hbyte]
      exact ⟨hlow, hhigh⟩
    rw [List.map_cons, List.cons_append, width, if_pos hrange, hbyte,
      ih fun c hc => hcs c (List.mem_cons_of_mem _ hc), Nat.ofDigitChars_cons, Nat.mul_comm]
    rfl

theorem width_decimal (w : ℕ) {c : UInt8} (hc : ¬ (48 ≤ c ∧ c ≤ 57)) (fmt : List UInt8) :
    width 0 (decimal w ++ c :: fmt) = (w, c :: fmt) := by
  rw [decimal_eq_digits, width_digits, Nat.ofDigitChars_ten_toDigits, width, if_neg hc]
  intro d hd
  exact Nat.isDigit_of_mem_toDigits (by decide) (by decide) hd

theorem Form.type_letter (form : Form) : ¬ (48 ≤ form.type ∧ form.type ≤ 57) ∧
    form.type ≠ 108 ∧ form.type ≠ 76 ∧ form.type ≠ 48 ∧ form.type ≠ 45 := by
  cases form <;> decide

/-- What `xvprintf` has the digits for, and a width that its `int` holds. -/
structure Entry.Fits (e : Entry) : Prop where
  digits : e.form.Fits e.v
  width : e.width < 2 ^ 31

namespace Entry

variable {e : Entry}

theorem field_eq (hwidth : e.width < 2 ^ 31) (fmt : List UInt8) :
    Xprintf.field (e.widthText ++ e.form.type :: fmt) = (e.field, e.form.type :: fmt) := by
  obtain ⟨hdigit, hl, hL, hzero, hminus⟩ := e.form.type_letter
  by_cases hnone : e.width = 0
  · have hread : Xprintf.width 0 (e.form.type :: fmt) = (0, e.form.type :: fmt) := if_neg hdigit
    simp [Xprintf.field, widthText, field, hnone, hzero, hminus, hread, hl, hL]
  · by_cases hlead : e.form.lead = []
    · -- the first digit of a width is neither of the flags
      have hroom : e.width < 10 ^ (15 + 1) := by omega
      obtain ⟨d, tail, hdigits, hd, hne⟩ := digits_head 0 (R := 10) (by decide) hroom
      rw [digits_eq 0 hroom] at hdigits
      have hflag : digitChar 0 d ≠ 48 ∧ digitChar 0 d ≠ 45 := by
        have hne := hne hnone
        interval_cases d
        · exact absurd rfl hne
        all_goals decide
      have hread := width_decimal e.width hdigit fmt
      rw [hdigits] at hread
      rw [widthText, if_neg hnone, if_pos hlead, hdigits]
      simp only [List.cons_append] at hread ⊢
      simp [Xprintf.field, field, hlead, hflag, hread, hl, hL]
    · rw [widthText, if_neg hnone, if_neg hlead]
      simp [Xprintf.field, field, hlead, hnone, width_decimal e.width hdigit fmt, hl, hL]

/-- **One sequence** of `xvprintf` takes one argument, and prints the blank,
the lead and the number in its width. -/
theorem xvprintf_fmt (h : e.width < 2 ^ 31) (fuel : ℕ) (fmt : List UInt8) (arp : List Arg) :
    xvprintf (fuel + 1 + (32 :: e.form.lead).length) (e.fmt ++ fmt) (.int e.v :: arp) =
      (xvprintf fuel fmt arp).map (e.text ++ ·) := by
  have hplain : 37 ∉ 32 :: e.form.lead := by
    cases e.form <;> decide
  have hsplit : e.fmt ++ fmt =
      (32 :: e.form.lead) ++ 37 :: (e.widthText ++ e.form.type :: fmt) := by
    simp [Entry.fmt]
  rw [hsplit, xvprintf_plain hplain, xvprintf, if_neg (by decide), e.field_eq h]
  simp only [Form.kind_type]
  cases xvprintf fuel fmt arp with
  | none => rfl
  | some rest => simp [text]

/-- The number without its sign: a minus is printed for a negative one of
the signed form only. -/
theorem numeral_text (e : Entry) : ∃ s m, numeral e.form.radix.toNat (e.form = .signed) e.form.type e.v =
      sign s ++ (digits e.form.radix.toNat e.form.type 16 m).reverse ∧
      (if s then 0 - UInt32.ofNat m else UInt32.ofNat m) = e.v ∧
      (e.form ≠ .signed → s = false ∧ m = e.v.toNat) ∧ m < 2 ^ 32 := by
  by_cases hminus : (decide (e.form = .signed) && decide (e.v &&& 0x80000000 ≠ 0)) = true
  · refine ⟨true, (0 - e.v).toNat, ?_, ?_, ?_, (0 - e.v).toNat_lt⟩
    · simp only [numeral, hminus, if_true, List.reverse_append, List.reverse_singleton]
      rfl
    · rw [if_pos rfl, UInt32.ofNat_toNat]
      simp
    · intro hne
      simp [hne] at hminus
  · refine ⟨false, e.v.toNat, ?_, ?_, fun _ => ⟨rfl, rfl⟩, e.v.toNat_lt⟩
    · simp only [numeral, hminus]
      rfl
    · rw [if_neg Bool.false_ne_true, UInt32.ofNat_toNat]

/-- Zeros in front of the digits do nothing to the value, however many there
are. -/
theorem xatoiLoop_fill (s : Bool) (hr : 2 ≤ r.toNat ∧ r.toNat ≤ 16) (k : ℕ) (str : List UInt8) :
    xatoiLoop s r (List.replicate k 48 ++ str) 0 = xatoiLoop s r str 0 := by
  induction k with
  | zero => rfl
  | succ k ih =>
    rw [List.replicate_succ, List.cons_append]
    refine (xatoiLoop_digitChar s 0 (d := 0) (by omega) hr.2 _ 0).trans ?_
    rw [UInt32.zero_mul]
    exact ih

/-- A numeral behind its lead is read in the base that the lead tells. -/
theorem xatoi_lead (h : e.form.lead ≠ []) (hfits : e.form.Fits e.v) (k : ℕ) (rest : List UInt8) :
    xatoi (32 :: e.form.lead ++ (List.replicate k 48 ++
        ((digits e.form.radix.toNat e.form.type 16 e.v.toNat).reverse ++ rest))) =
      xatoiLoop false e.form.radix rest e.v := by
  have hradix : 2 ≤ e.form.radix.toNat ∧ e.form.radix.toNat ≤ 16 := by
    cases e.form <;> decide
  have hread := (xatoiLoop_fill false hradix k _).trans
    (xatoiLoop_digits false e.form.type hradix rest hfits)
  rw [UInt32.ofNat_toNat] at hread
  rw [← hread]
  cases hform : e.form with
  | signed => rw [hform] at h; exact absurd rfl h
  | unsigned => rw [hform] at h; exact absurd rfl h
  | hex => rfl
  | heX => rfl
  | bin => rfl
  | oct =>
    -- the first character behind the 0 tells an octal numeral
    cases k with
    | zero =>
      have hlt : e.v.toNat < 8 ^ (15 + 1) := by
        rw [hform] at hfits
        exact hfits
      obtain ⟨d, tail, hdigits, hd, -⟩ := digits_head Form.oct.type (R := 8) (by decide) hlt
      show xatoi (48 :: ((digits 8 Form.oct.type 16 e.v.toNat).reverse ++ rest)) =
        xatoiLoop false 8 ((digits 8 Form.oct.type 16 e.v.toNat).reverse ++ rest) 0
      rw [hdigits]
      exact xatoi_oct Form.oct.type hd _
    | succ k => exact xatoi_oct 0 (d := 0) (by decide) _

/-- **A number that is printed is read**, in each of the forms, and what
stands behind it is left. -/
theorem xatoi_text (hfits : e.Fits) (h : rest.headD 0 ≤ 32) :
    xatoi (e.text ++ rest) = ⟨true, e.v, rest⟩ := by
  obtain ⟨s, m, hnumeral, hvalue, hunsigned, hm⟩ := e.numeral_text
  rw [text, hnumeral, Field.fill, if_neg (show ¬ e.field.minus = true by simp [field])]
  by_cases hlead : e.form.lead = []
  · have hzero : e.field.zero = false := by simp [field, hlead]
    have hradix : e.form.radix.toNat = 10 := by
      cases hform : e.form with
      | signed | unsigned => rfl
      | hex | heX | oct | bin => simp [hform, Form.lead] at hlead
    rw [hlead, hzero, hradix, if_neg Bool.false_ne_true, List.append_assoc, List.append_assoc,
      List.append_assoc]
    refine (xatoi_skip 1 _).trans ((xatoi_skip _ _).trans ?_)
    rw [xatoi_digits s _ (by omega) h, hvalue]
  · have hfill (k : ℕ) : List.replicate (e.field.width - k) (if e.field.zero then 48 else 32) =
        List.replicate (e.field.width - k) (48 : UInt8) := by
      by_cases hnone : e.width = 0
      · have hwidth : e.field.width = 0 := hnone
        rw [hwidth, Nat.zero_sub]
        rfl
      · have hzero : e.field.zero = true := by simp [field, hlead, hnone]
        rw [hzero, if_pos rfl]
    obtain ⟨rfl, rfl⟩ := hunsigned fun hsigned => hlead (by rw [hsigned]; rfl)
    rw [hfill, List.append_assoc, List.append_assoc]
    exact (xatoi_lead hlead hfits.digits _ _).trans (xatoiLoop_end false _ h _)

end Entry

/-- Calls of `xatoi`, one behind the other, each from where the last has
stopped: they all answer, or nothing is read. -/
def xatois : ℕ → List UInt8 → Option (List UInt32 × List UInt8)
  | 0, str => some ([], str)
  | k + 1, str => do
    let p := xatoi str
    guard p.ok
    let (vs, rest) ← xatois k p.str
    return (p.res :: vs, rest)

/-- The format of a line of numbers prints them. -/
theorem xvprintf_entries {es : List Entry} (hfits : ∀ e ∈ es, e.Fits) {fuel : ℕ}
    (hfuel : (es.flatMap Entry.fmt).length < fuel) :
    xvprintf fuel (es.flatMap Entry.fmt) (es.map fun e => .int e.v) =
      some (es.flatMap Entry.text) := by
  induction es generalizing fuel with
  | nil =>
    obtain ⟨fuel, rfl⟩ : ∃ left, fuel = left + 1 := ⟨fuel - 1, by omega⟩
    rfl
  | cons e es ih =>
    have hlength : e.fmt.length = (32 :: e.form.lead).length + (1 + e.widthText.length + 1) := by
      simp [Entry.fmt]
      omega
    rw [List.flatMap_cons, List.length_append, hlength] at hfuel
    obtain ⟨left, rfl⟩ : ∃ left, fuel = left + 1 + (32 :: e.form.lead).length :=
      ⟨fuel - 1 - (32 :: e.form.lead).length, by omega⟩
    rw [List.flatMap_cons, List.map_cons, Entry.xvprintf_fmt (hfits e List.mem_cons_self).width,
      ih (fun e he => hfits e (List.mem_cons_of_mem _ he)) (by omega)]
    rfl

/-- Behind a number stands the blank of the next, or what stands behind
the line. -/
theorem entries_headD (es : List Entry) (h : rest.headD 0 ≤ 32) :
    (es.flatMap Entry.text ++ rest).headD 0 ≤ 32 := by
  cases es with
  | nil => exact h
  | cons e es => exact UInt8.le_refl 32

theorem xatois_entries {es : List Entry} (hfits : ∀ e ∈ es, e.Fits) (h : rest.headD 0 ≤ 32) :
    xatois es.length (es.flatMap Entry.text ++ rest) = some (es.map Entry.v, rest) := by
  induction es with
  | nil => rfl
  | cons e es ih =>
    have hnumber := e.xatoi_text (hfits e List.mem_cons_self) (entries_headD es h)
    rw [List.flatMap_cons, List.append_assoc, List.length_cons, xatois, hnumber,
      ih fun e he => hfits e (List.mem_cons_of_mem _ he)]
    rfl

/-- **What is printed is read back**: the numbers of a line, one behind
the other, and what stands behind the line is left. The format of a number
is a blank, the prefix of its radix, and the sequence, with a width or
without. -/
theorem xatoi_xvprintf (es : List Entry) (hfits : ∀ e ∈ es, e.Fits) (h : rest.headD 0 ≤ 32) :
    xvprintf ((es.flatMap Entry.fmt).length + 1) (es.flatMap Entry.fmt)
        (es.map fun e => .int e.v) = some (es.flatMap Entry.text) ∧
      xatois es.length (es.flatMap Entry.text ++ rest) = some (es.map Entry.v, rest) :=
  ⟨xvprintf_entries hfits (Nat.lt_succ_self _), xatois_entries hfits h⟩

/-- The line of the source's own example, with five numbers in four bases
and a text behind it. -/
theorem xatoi_xvprintf_line :
    (∀ e ∈ [Entry.mk .unsigned 0 123, ⟨.signed, 6, 0xFFFFFFFB⟩, ⟨.hex, 0, 0x3FF⟩, ⟨.bin, 6, 15⟩,
      ⟨.oct, 0, 255⟩], e.Fits) ∧
    xatois 5 ([Entry.mk .unsigned 0 123, ⟨.signed, 6, 0xFFFFFFFB⟩, ⟨.hex, 0, 0x3FF⟩, ⟨.bin, 6, 15⟩,
      ⟨.oct, 0, 255⟩].flatMap Entry.text ++ ascii " w") =
        some ([123, 0xFFFFFFFB, 0x3FF, 15, 255], ascii " w") := by
  have hfits : ∀ e ∈ [Entry.mk .unsigned 0 123, ⟨.signed, 6, 0xFFFFFFFB⟩, ⟨.hex, 0, 0x3FF⟩,
      ⟨.bin, 6, 15⟩, ⟨.oct, 0, 255⟩], e.Fits := by
    simp only [List.forall_mem_cons]
    refine ⟨⟨?_, ?_⟩, ⟨?_, ?_⟩, ⟨?_, ?_⟩, ⟨?_, ?_⟩, ⟨?_, ?_⟩, List.forall_mem_nil _⟩ <;> decide
  exact ⟨hfits, (xatoi_xvprintf _ hfits (by decide)).2⟩

/-! ## xgets -/

variable {n : ℕ} {line : List UInt8}

/-- The line after a character, where there is room for `room` of
them. -/
def typed (room : ℕ) (line : List UInt8) (c : UInt8) : List UInt8 :=
  if c = 8 then line.dropLast else if c ≥ 32 ∧ line.length < room then line ++ [c] else line

/-- A character of a line, and neither its end nor that of the stream. -/
def inLine (c : UInt8) : Bool := c ≠ 0 ∧ c ≠ 13

/-- The line at the head of a stream: what is left of it when its backspaces
have been obeyed, in a buffer of `room` characters. -/
def lineOf (room : ℕ) (stream : List UInt8) : List UInt8 :=
  (stream.takeWhile inLine).foldl (typed room) []

/-- The stream goes on with CR behind its first line, so that `xgets`
returns. -/
def Arrives (stream : List UInt8) : Prop := (stream.dropWhile inLine).headD 0 = 13

instance (stream : List UInt8) : Decidable (Arrives stream) := inferInstanceAs (Decidable (_ = _))

theorem typed_line {room : ℕ} (hlen : line.length ≤ room) (hnul : 0 ∉ line) (c : UInt8) :
    (typed room line c).length ≤ room ∧ 0 ∉ typed room line c := by
  unfold typed
  split_ifs with hback hroom
  · refine ⟨?_, fun h => hnul (List.dropLast_subset _ h)⟩
    rw [List.length_dropLast]
    omega
  · refine ⟨?_, ?_⟩
    · rw [List.length_append, List.length_singleton]
      exact hroom.2
    · rw [List.mem_append, List.mem_singleton, not_or]
      refine ⟨hnul, ?_⟩
      rintro rfl
      exact absurd hroom.1 (by decide)
  · exact ⟨hlen, hnul⟩

theorem foldl_typed {room : ℕ} (hlen : line.length ≤ room) (hnul : 0 ∉ line) (cs : List UInt8) :
    (cs.foldl (typed room) line).length ≤ room ∧ 0 ∉ cs.foldl (typed room) line := by
  induction cs generalizing line with
  | nil => exact ⟨hlen, hnul⟩
  | cons c cs ih =>
    obtain ⟨hlen, hnul⟩ := typed_line hlen hnul c
    exact ih hlen hnul

theorem slice_dropLast {b : Block n} (h : b.slice 0 line.length = line) :
    b.slice 0 line.dropLast.length = line.dropLast := by
  induction line using List.reverseRecOn with
  | nil => rfl
  | append_singleton front c =>
    rw [List.length_append, List.length_singleton, Block.slice_succ] at h
    rw [List.dropLast_concat]
    exact (List.append_inj' h rfl).1

theorem slice_set_end {b : Block n} (h : b.slice 0 line.length = line) (c : UInt8) :
    (b.set line.length c).slice 0 (line ++ [c]).length = line ++ [c] := by
  have hfront : (b.set line.length c).slice 0 line.length = line :=
    (Block.slice_set_of_le (by omega)).trans h
  rw [List.length_append, List.length_singleton, Block.slice_succ, hfront, Nat.zero_add,
    Block.byte_set_self]

/-- **The loop of `xgets`** keeps the line at the head of its buffer. -/
theorem xgetsLoop_eq {room : ℕ} (hroom : room < n) (stream : List UInt8) (b : Block n)
    (hline : b.slice 0 line.length = line) (hlen : line.length ≤ room) :
    ∃ b', xgetsLoop (room + 1) stream b line.length = some (if Arrives stream then
        some (b', ((stream.takeWhile inLine).foldl (typed room) line).length) else none) ∧
      b'.slice 0 ((stream.takeWhile inLine).foldl (typed room) line).length =
        (stream.takeWhile inLine).foldl (typed room) line ∧
      ∀ k, room ≤ k → b'.byte k = b.byte k := by
  induction stream generalizing b line with
  | nil => exact ⟨b, rfl, hline, fun _ _ => rfl⟩
  | cons c stream ih =>
    by_cases hin : inLine c = true
    · obtain ⟨hzero, hend⟩ : c ≠ 0 ∧ c ≠ 13 := by simpa [inLine] using hin
      have harrives : Arrives (c :: stream) ↔ Arrives stream := by
        rw [Arrives, Arrives, List.dropWhile_cons_of_pos hin]
      rw [xgetsLoop, if_neg hzero, if_neg hend, List.takeWhile_cons_of_pos hin, List.foldl_cons]
      simp only [harrives]
      by_cases hback : c = 8
      · have htyped : typed room line c = line.dropLast := if_pos hback
        rw [htyped]
        by_cases hempty : line.length = 0
        · rw [if_neg fun h => h.2 hempty, if_neg fun h => absurd h.1 (by rw [hback]; decide)]
          rw [List.length_eq_zero_iff] at hempty
          subst hempty
          exact ih b rfl hlen
        · have hshort := ih b (slice_dropLast hline) (by rw [List.length_dropLast]; omega)
          rw [List.length_dropLast] at hshort
          rw [if_pos ⟨hback, hempty⟩]
          exact hshort
      · rw [if_neg fun h => hback h.1]
        by_cases hfits : c ≥ 32 ∧ line.length < room
        · have htyped : typed room line c = line ++ [c] := by
            rw [typed, if_neg hback, if_pos hfits]
          obtain ⟨b', hloop, hslice, hframe⟩ := ih (b.set line.length c) (slice_set_end hline c)
            (by rw [List.length_append, List.length_singleton]; omega)
          rw [htyped, if_pos ⟨hfits.1, by omega⟩, Block.store_of_lt (by omega)]
          refine ⟨b', ?_, hslice, fun k hk => ?_⟩
          · rw [List.length_append, List.length_singleton] at hloop
            exact hloop
          · rw [hframe k hk, Block.byte_set_of_ne (by omega)]
        · have htyped : typed room line c = line := by
            rw [typed, if_neg hback, if_neg hfits]
          rw [htyped, if_neg fun h => hfits ⟨h.1, by omega⟩]
          exact ih b hline hlen
    · have harrives : Arrives (c :: stream) ↔ c = 13 := by
        rw [Arrives, List.dropWhile_cons_of_neg hin]
        rfl
      rw [xgetsLoop, List.takeWhile_cons_of_neg hin]
      simp only [harrives]
      refine ⟨b, ?_, hline, fun _ _ => rfl⟩
      by_cases hzero : c = 0
      · subst hzero
        rfl
      · have hend : c = 13 := by
          by_contra hend
          exact hin (by simp [inLine, hzero, hend])
        subst hend
        rfl

/-- **`xgets` stays inside its buffer**, answers that a line has come
exactly where a carriage return comes before the stream ends, and leaves the
line: what is visible and has room, without what was deleted. -/
theorem xgets_eq (stream : List UInt8) (buff : Block n) {len : ℕ} (h : 0 < len ∧ len ≤ n) :
    ∃ buff', xgets stream buff len = some (if Arrives stream then some buff' else none) ∧
      buff'.str 0 = some (lineOf (len - 1) stream) ∧ (lineOf (len - 1) stream).length < len ∧
      ∀ k, len ≤ k → buff'.byte k = buff.byte k := by
  have hlen : ((len - 1 : ℕ) : ℤ) + 1 = len := by omega
  obtain ⟨b, hloop, hslice, hframe⟩ := xgetsLoop_eq (show len - 1 < n by omega) stream buff
    (show buff.slice 0 [].length = [] from rfl) (Nat.zero_le _)
  obtain ⟨hfit, hnul⟩ := foldl_typed (show [].length ≤ len - 1 from Nat.zero_le _)
    List.not_mem_nil (stream.takeWhile inLine)
  rw [hlen] at hloop
  change _ = some (if Arrives stream then some (b, (lineOf (len - 1) stream).length) else none)
    at hloop
  change (lineOf (len - 1) stream).length ≤ len - 1 at hfit
  refine ⟨b.set (lineOf (len - 1) stream).length 0, ?_, ?_, by omega, fun k hk => ?_⟩
  · rw [xgets, List.length_nil.symm, hloop]
    by_cases harrives : Arrives stream
    · simp only [if_pos harrives, Option.bind_eq_bind, Option.bind_some]
      rw [Block.store_of_lt (by omega)]
      rfl
    · simp only [if_neg harrives]
      rfl
  · rw [Block.str_of_byte_eq_zero (Nat.zero_le _) (by omega) Block.byte_set_self]
    refine congrArg some (Block.cstr_eq ((Block.slice_set_of_le (by omega)).trans hslice) hnul
      (Or.inr ⟨by omega, ?_⟩))
    rw [Nat.zero_add]
    exact Block.byte_set_self
  · rw [Block.byte_set_of_ne (by omega), hframe k (by omega)]

/-- A line with a mistake, which a backspace takes back. -/
theorem xgets_eq_back : ∃ buff', xgets (ascii "led 8" ++ [8, 49, 13]) (⟨fun _ => 0xFF⟩ : Block 8) 8 =
      some (some buff') ∧ buff'.str 0 = some (ascii "led 1") := by
  obtain ⟨buff', hgets, hline, -⟩ := xgets_eq (ascii "led 8" ++ [8, 49, 13])
    (⟨fun _ => 0xFF⟩ : Block 8) (show 0 < 8 ∧ 8 ≤ 8 by decide)
  refine ⟨buff', hgets.trans ?_, hline.trans ?_⟩ <;> rfl

/-! ## A line that is sent -/

theorem mem_digits (c : UInt8) {R : ℕ} (hR : 0 < R ∧ R ≤ 16) {left : ℕ} : ∀ {v : ℕ} {d : UInt8},
    d ∈ digits R c left v → d > 32 := by
  induction left with
  | zero =>
    intro v d hd
    exact absurd hd List.not_mem_nil
  | succ left ih =>
    intro v d hd
    rw [digits_succ, List.mem_cons] at hd
    rcases hd with rfl | hd
    · exact (charValue_digitChar c (Nat.lt_of_lt_of_le (Nat.mod_lt v hR.1) hR.2)).2
    · split_ifs at hd with hzero
      · exact ih hd
      · exact absurd hd List.not_mem_nil

/-- A number is printed in visible characters and blanks. -/
theorem Entry.mem_text {e : Entry} {c : UInt8} (h : c ∈ e.text) : 32 ≤ c := by
  obtain ⟨s, m, hnumeral, -⟩ := e.numeral_text
  have hradix : 0 < e.form.radix.toNat ∧ e.form.radix.toNat ≤ 16 := by
    cases e.form <;> decide
  have hfront : (32 :: e.form.lead).all (32 ≤ ·) = true ∧ (sign s).all (32 ≤ ·) = true := by
    cases e.form <;> cases s <;> decide
  rw [Entry.text, hnumeral, Field.fill, if_neg (show ¬ e.field.minus = true by simp [Entry.field]),
    List.mem_append, List.mem_append, List.mem_append, List.mem_reverse] at h
  rcases h with hlead | hfill | hsign | hdigit
  · exact of_decide_eq_true (List.all_eq_true.1 hfront.1 c hlead)
  · rw [(List.mem_replicate.1 hfill).2]
    split <;> decide
  · exact of_decide_eq_true (List.all_eq_true.1 hfront.2 c hsign)
  · exact UInt8.le_of_lt (mem_digits _ hradix hdigit)

/-- What is visible and fits is kept as it was sent, and the line ends at
its CR. -/
theorem lineOf_visible {text : List UInt8} (h : ∀ c ∈ text, 32 ≤ c) {room : ℕ}
    (hlen : text.length ≤ room) (stream : List UInt8) :
    lineOf room (text ++ 13 :: stream) = text ∧ Arrives (text ++ 13 :: stream) := by
  have hin : ∀ c ∈ text, inLine c = true := by
    intro c hc
    have hvisible := h c hc
    have hne : c ≠ 0 ∧ c ≠ 13 := by
      refine ⟨?_, ?_⟩ <;> rintro rfl <;> exact absurd hvisible (by decide)
    simpa [inLine] using hne
  have hfold : ∀ (front cs : List UInt8), (∀ c ∈ cs, 32 ≤ c) → front.length + cs.length ≤ room →
      cs.foldl (typed room) front = front ++ cs := by
    intro front cs
    induction cs generalizing front with
    | nil =>
      intro _ _
      exact (List.append_nil front).symm
    | cons c cs ih =>
      intro hcs hroom
      rw [List.length_cons] at hroom
      have hvisible := hcs c List.mem_cons_self
      have hback : c ≠ 8 := by
        rintro rfl
        exact absurd hvisible (by decide)
      have htyped : typed room front c = front ++ [c] := by
        rw [typed, if_neg hback, if_pos ⟨hvisible, by omega⟩]
      rw [List.foldl_cons, htyped, ih _ (fun c hc => hcs c (List.mem_cons_of_mem _ hc))
        (by rw [List.length_append, List.length_singleton]; omega), List.append_assoc]
      rfl
  refine ⟨?_, ?_⟩
  · rw [lineOf, List.takeWhile_append_of_pos hin, List.takeWhile_cons_of_neg (by decide),
      List.append_nil, hfold [] text h (by rw [List.length_nil]; omega), List.nil_append]
  · rw [Arrives, List.dropWhile_append_of_pos hin]
    rfl

/-- **A line of numbers that is printed and sent** is taken into a buffer it
fits, and read there: the numbers, and nothing behind them. The numbers are
printed as for `xatoi_xvprintf`, each behind a blank and the prefix of its
radix. -/
theorem xatoi_xgets (es : List Entry) (hfits : ∀ e ∈ es, e.Fits) (buff : Block n) {len : ℕ}
    (h : (es.flatMap Entry.text).length < len ∧ len ≤ n) (stream : List UInt8) :
    ∃ text buff', xvprintf ((es.flatMap Entry.fmt).length + 1) (es.flatMap Entry.fmt)
        (es.map fun e => .int e.v) = some text ∧
      xgets (text ++ 13 :: stream) buff len = some (some buff') ∧
      buff'.str 0 = some text ∧ xatois es.length text = some (es.map Entry.v, []) := by
  have hvisible : ∀ c ∈ es.flatMap Entry.text, 32 ≤ c := by
    intro c hc
    obtain ⟨e, -, hc⟩ := List.mem_flatMap.1 hc
    exact e.mem_text hc
  obtain ⟨hline, harrives⟩ := lineOf_visible hvisible
    (show (es.flatMap Entry.text).length ≤ len - 1 by omega) stream
  obtain ⟨buff', hgets, hstr, -⟩ := xgets_eq (es.flatMap Entry.text ++ 13 :: stream) buff
    (show 0 < len ∧ len ≤ n by omega)
  have hread := xatois_entries hfits (show ([] : List UInt8).headD 0 ≤ 32 by decide)
  rw [List.append_nil] at hread
  rw [if_pos harrives] at hgets
  rw [hline] at hstr
  exact ⟨_, buff', xvprintf_entries hfits (Nat.lt_succ_self _), hgets, hstr, hread⟩

/-- `-5` and `0x00a3`, printed, sent, received and read back. -/
theorem xatoi_xgets_two : (∀ e ∈ [Entry.mk .signed 0 0xFFFFFFFB, ⟨.hex, 4, 0xA3⟩], e.Fits) ∧
    ∃ text buff', xvprintf 13 (ascii " %d 0x%04x") [.int 0xFFFFFFFB, .int 0xA3] = some text ∧
      xgets (text ++ [13]) (⟨fun _ => 0⟩ : Block 16) 16 = some (some buff') ∧
      buff'.str 0 = some text ∧ xatois 2 text = some ([0xFFFFFFFB, 0xA3], []) := by
  have hfits : ∀ e ∈ [Entry.mk .signed 0 0xFFFFFFFB, ⟨.hex, 4, 0xA3⟩], e.Fits := by
    simp only [List.forall_mem_cons]
    refine ⟨⟨?_, ?_⟩, ⟨?_, ?_⟩, List.forall_mem_nil _⟩ <;> decide
  refine ⟨hfits, ?_⟩
  have hformat : ([Entry.mk .signed 0 0xFFFFFFFB, ⟨.hex, 4, 0xA3⟩] : List Entry).flatMap Entry.fmt =
      ascii " %d 0x%04x" := by
    decide
  have hroom : (([Entry.mk .signed 0 0xFFFFFFFB, ⟨.hex, 4, 0xA3⟩] : List Entry).flatMap
      Entry.text).length < 16 ∧ 16 ≤ 16 := by
    decide
  obtain ⟨text, buff', hprint, hgets, hstr, hread⟩ :=
    xatoi_xgets _ hfits (⟨fun _ => 0⟩ : Block 16) hroom []
  rw [hformat] at hprint
  exact ⟨text, buff', hprint, hgets, hstr, hread⟩

end Xprintf

end SlipBoard
