import SlipBoard.Xprintf.Model.Format
import Mathlib.Data.Nat.Bitwise
/-!
# Xprintf — what is put into the buffer

A text goes into the buffer with a `\r` in front of each line feed
(`crlf`), and a NUL behind it: it fits exactly where there is room for
that many bytes (`xsprintf_eq`). A number that is not negative is put as
its decimal numeral (`numeral_eq`).
-/

namespace SlipBoard

namespace Xprintf

variable {n : ℕ} {o : Out n} {str text fmt : List UInt8} {arp : List Arg} {v : ℕ}

/-! ## Characters -/

/-- The text, with what `xputc` puts in front of a line feed. -/
def crlf (str : List UInt8) : List UInt8 := str.flatMap fun c => if c = 10 then [13, 10] else [c]

@[simp] theorem crlf_nil : crlf [] = [] := rfl

theorem crlf_cons (c : UInt8) (str : List UInt8) :
    crlf (c :: str) = (if c = 10 then [13, 10] else [c]) ++ crlf str := rfl

@[simp] theorem crlf_append (str text : List UInt8) : crlf (str ++ text) = crlf str ++ crlf text :=
  List.flatMap_append

/-- Each line feed takes a byte more in the buffer, for the CR in front of
it. -/
theorem length_crlf (str : List UInt8) : (crlf str).length = str.length + str.count 10 := by
  induction str with
  | nil => rfl
  | cons c str ih =>
    rw [crlf_cons, List.length_append, ih, List.length_cons, List.count_cons]
    by_cases hc : c = 10
    · rw [if_pos hc, if_pos (by simpa using hc), List.length_cons, List.length_singleton]
      omega
    · rw [if_neg hc, if_neg (by simpa using hc), List.length_singleton]
      omega

theorem nul_notMem_crlf (h : 0 ∉ str) : 0 ∉ crlf str := by
  intro hmem
  obtain ⟨c, hc, hzero⟩ := List.mem_flatMap.1 hmem
  split at hzero
  · simp at hzero
  · rw [List.mem_singleton] at hzero
    exact h (hzero ▸ hc)

/-- A text without a line feed is put as it is. -/
theorem crlf_eq_self (h : 10 ∉ str) : crlf str = str := by
  induction str with
  | nil => rfl
  | cons c str ih =>
    rw [List.mem_cons, not_or] at h
    rw [crlf_cons, if_neg (Ne.symm h.1), ih h.2]
    rfl

/-- What a text leaves: its bytes in the buffer from `outptr` on, and
`outptr` behind them. -/
def Out.after (o : Out n) (text : List UInt8) : Out n :=
  ⟨o.buff.overwrite o.outptr text, o.outptr + text.length⟩

theorem Out.after_append (o : Out n) (str text : List UInt8) :
    (o.after str).after text = o.after (str ++ text) := by
  unfold Out.after
  rw [Block.overwrite_overwrite rfl, List.length_append, Nat.add_assoc]

theorem Out.put_of_lt (h : o.outptr < n) (c : UInt8) : o.put c = some (o.after [c]) := by
  rw [Out.put, Block.store_of_lt h, Block.set_eq_overwrite]
  rfl

theorem Out.put_of_le (h : n ≤ o.outptr) (c : UInt8) : o.put c = none := by
  rw [Out.put, Block.store, if_neg (Nat.not_lt.2 h)]
  rfl

theorem xputc_lf (o : Out n) : xputc o 10 = (o.put 13).bind fun o => o.put 10 := rfl

theorem xputc_of_ne {c : UInt8} (h : c ≠ 10) (o : Out n) : xputc o c = o.put c := by
  rw [xputc, if_neg h]
  rfl

/-- **One character**, with a `\r` in front of a line feed, where both fit. -/
theorem xputc_eq (h : o.outptr ≤ n) (c : UInt8) : xputc o c =
    if o.outptr + (crlf [c]).length ≤ n then some (o.after (crlf [c])) else none := by
  by_cases hc : c = 10
  · subst hc
    have hlen : (crlf [10]).length = 2 := rfl
    rw [xputc_lf, hlen]
    by_cases hroom : o.outptr < n
    · rw [o.put_of_lt hroom, Option.bind_some]
      by_cases hnext : o.outptr + 1 < n
      · rw [if_pos (by omega), Out.put_of_lt hnext, Out.after_append]
        rfl
      · rw [if_neg (by omega)]
        exact Out.put_of_le (Nat.not_lt.1 hnext) 10
    · rw [if_neg (by omega), o.put_of_le (Nat.not_lt.1 hroom)]
      rfl
  · have hone : crlf [c] = [c] := crlf_eq_self (by simpa using Ne.symm hc)
    rw [xputc_of_ne hc, hone, List.length_singleton]
    by_cases hroom : o.outptr < n
    · rw [if_pos (by omega), o.put_of_lt hroom]
    · rw [if_neg (by omega), o.put_of_le (Nat.not_lt.1 hroom)]

/-- **A text** goes where it fits, and no further. -/
theorem xputs_eq (h : o.outptr ≤ n) (str : List UInt8) : xputs o str =
    if o.outptr + (crlf str).length ≤ n then some (o.after (crlf str)) else none := by
  induction str generalizing o with
  | nil =>
    rw [crlf_nil, List.length_nil, Nat.add_zero, if_pos h, Out.after, Block.overwrite_nil]
    rfl
  | cons c str ih =>
    have hsplit : crlf (c :: str) = crlf [c] ++ crlf str := crlf_append [c] str
    rw [xputs, List.foldlM_cons, xputc_eq h, hsplit, List.length_append]
    by_cases hroom : o.outptr + (crlf [c]).length ≤ n
    · rw [if_pos hroom, Option.bind_eq_bind, Option.bind_some, ← Out.after_append, ← Nat.add_assoc]
      exact ih hroom
    · rw [if_neg hroom, if_neg (by omega)]
      rfl

/-- **What `xsprintf` leaves**: the text and a NUL, where there is room for
both; else a store goes outside of the buffer. -/
theorem xsprintf_eq (buff : Block n) (h : xvprintf (fmt.length + 1) fmt arp = some text) :
    xsprintf buff fmt arp = if (crlf text).length < n then
      some (buff.overwrite 0 (crlf text ++ [0])) else none := by
  rw [xsprintf, h, Option.bind_eq_bind, Option.bind_some, xputs_eq (Nat.zero_le n)]
  simp only [Nat.zero_add]
  by_cases hroom : (crlf text).length < n
  · rw [if_pos hroom.le, if_pos hroom, Option.bind_eq_bind, Option.bind_some, Out.after, Nat.zero_add,
      Block.store_of_lt hroom, Block.set_eq_overwrite, Block.overwrite_overwrite (Nat.zero_add _).symm]
  · rw [if_neg hroom]
    by_cases hfull : (crlf text).length ≤ n
    · rw [if_pos hfull, Option.bind_eq_bind, Option.bind_some, Out.after, Nat.zero_add]
      exact if_neg hroom
    · rw [if_neg hfull]
      rfl

/-- A text that fits is the string that is there. -/
theorem xsprintf_line (buff : Block n) (h : xvprintf (fmt.length + 1) fmt arp = some text)
    (hnul : 0 ∉ text) (hfit : (crlf text).length < n) :
    ∃ buff', xsprintf buff fmt arp = some buff' ∧ buff'.str 0 = some (crlf text) := by
  refine ⟨_, (xsprintf_eq buff h).trans (if_pos hfit), ?_⟩
  exact Block.str_overwrite_nul (nul_notMem_crlf hnul) (by omega)

/-- Text in front of the first `%` goes through. -/
theorem xvprintf_plain (h : 37 ∉ text) (fuel : ℕ) : xvprintf (fuel + text.length) (text ++ fmt) arp =
    (xvprintf fuel fmt arp).map (text ++ ·) := by
  induction text with
  | nil =>
    rw [List.length_nil, Nat.add_zero, List.nil_append]
    exact Option.map_id'.symm
  | cons c text ih =>
    rw [List.mem_cons, not_or] at h
    rw [List.length_cons, ← Nat.add_assoc, List.cons_append, xvprintf, if_pos (Ne.symm h.1), ih h.2]
    cases xvprintf fuel fmt arp with
    | none => rfl
    | some rest => rfl

/-! ## Numbers -/

/-- The decimal numeral of a number, in the characters of `Nat.repr`. -/
def decimal (v : ℕ) : List UInt8 := ascii v.repr

theorem decimal_eq_digits (v : ℕ) :
    decimal v = (Nat.toDigits 10 v).map fun c => UInt8.ofNat c.toNat := by
  rw [decimal, ascii, Nat.toList_repr]

/-- A digit, as the loop stores it, is the character that `Nat.digitChar`
gives. -/
theorem digit_eq (c : UInt8) {d : ℕ} (h : d < 10) :
    UInt8.ofNat ((if d > 9 then d + (if c = 120 then 0x27 else 0x07) else d) + 48) =
      UInt8.ofNat d.digitChar.toNat := by
  rw [if_neg (by omega), Nat.toNat_digitChar_of_lt_ten h, Nat.add_comm]

theorem digits_of_lt (c : UInt8) (left : ℕ) (h : v < 10) :
    digits 10 c (left + 1) v = [UInt8.ofNat v.digitChar.toNat] := by
  have hdiv : ¬ v / 10 ≠ 0 := not_not_intro (Nat.div_eq_of_lt h)
  simp only [digits, if_neg hdiv, Nat.mod_eq_of_lt h, digit_eq c h]

theorem digits_of_le (c : UInt8) (left : ℕ) (h : 10 ≤ v) :
    digits 10 c (left + 1) v =
      UInt8.ofNat (v % 10).digitChar.toNat :: digits 10 c left (v / 10) := by
  have hdiv : v / 10 ≠ 0 := Nat.div_ne_zero_iff.2 ⟨by decide, h⟩
  simp only [digits, if_pos hdiv, digit_eq c (Nat.mod_lt v (by decide))]

/-- **The loop over the digits** makes the numeral, where `s` has room: the
digits come last first, and are turned round. -/
theorem digits_eq (c : UInt8) {left : ℕ} : ∀ {v : ℕ}, v < 10 ^ (left + 1) →
    (digits 10 c (left + 1) v).reverse = decimal v := by
  induction left with
  | zero =>
    intro v hv
    rw [Nat.zero_add, Nat.pow_one] at hv
    rw [decimal_eq_digits, Nat.toDigits_of_lt_base hv, digits_of_lt c 0 hv]
    rfl
  | succ left ih =>
    intro v hv
    by_cases hsmall : v < 10
    · rw [decimal_eq_digits, Nat.toDigits_of_lt_base hsmall, digits_of_lt c _ hsmall]
      rfl
    · have hle : 10 ≤ v := Nat.not_lt.1 hsmall
      have hrest : v / 10 < 10 ^ (left + 1) := by
        rw [Nat.div_lt_iff_lt_mul (by decide), ← Nat.pow_succ]
        exact hv
      rw [decimal_eq_digits, Nat.toDigits_of_base_le (by decide) hle, List.map_append,
        ← decimal_eq_digits, ← ih hrest, digits_of_le c _ hle, List.reverse_cons]
      rfl

/-- A number below `10 ^ k` has a numeral of at most `k` digits. -/
theorem length_decimal_le {k : ℕ} (hk : 0 < k) (h : v < 10 ^ k) : (decimal v).length ≤ k := by
  rw [decimal_eq_digits, List.length_map]
  exact (Nat.length_toDigits_le_iff (by decide) hk).2 h

/-- A decimal numeral is made of digits, and so holds neither a line feed
nor a percent sign. -/
theorem mem_decimal {b : UInt8} (h : b ∈ decimal v) : 48 ≤ b.toNat ∧ b.toNat ≤ 57 := by
  rw [decimal_eq_digits, List.mem_map] at h
  obtain ⟨c, hc, rfl⟩ := h
  have hdigit := Nat.isDigit_of_mem_toDigits (by decide) (by decide) hc
  rw [Char.isDigit, Bool.and_eq_true, decide_eq_true_eq, decide_eq_true_eq] at hdigit
  have hlow : 48 ≤ c.toNat := hdigit.1
  have hhigh : c.toNat ≤ 57 := hdigit.2
  rw [UInt8.toNat_ofNat']
  omega

theorem lf_notMem_decimal (v : ℕ) : 10 ∉ decimal v :=
  fun h => absurd (mem_decimal h).1 (by decide)

theorem nul_notMem_decimal (v : ℕ) : 0 ∉ decimal v :=
  fun h => absurd (mem_decimal h).1 (by decide)

/-- **A number that is not negative** has the same numeral with a sign and
without. -/
theorem numeral_eq (signed : Bool) (c : UInt8) {v : UInt32} (h : v < 0x80000000) :
    numeral 10 signed c v = decimal v.toNat := by
  have hlt : v.toNat < 2 ^ 31 := h
  have hand : v &&& 0x80000000 = 0 := by
    refine UInt32.toNat_inj.1 ?_
    show v.toNat &&& 2 ^ 31 = 0
    rw [Nat.and_two_pow, Nat.testBit_lt_two_pow hlt]
    rfl
  have hsign : (signed && decide (v &&& 0x80000000 ≠ 0)) = false := by
    rw [hand]
    exact Bool.and_false _
  have hroom : v.toNat < 10 ^ (15 + 1) := by omega
  rw [numeral, hsign]
  exact digits_eq c hroom

end Xprintf

end SlipBoard
