import Mathlib.Data.List.TakeWhile
import Mathlib.Logic.Function.Basic
/-!
# Byte arrays and C strings

A C array of `n` bytes, as a memory of which `n` cells belong to the
array. `slice` reads a range of it and `cstr` the NUL-terminated string
at an index; `CStr` is the value such a string has, which holds no NUL
and fits its array. A store outside the array is a store to a cell no
slice of the array reads.

`load`, `store`, `read`, `write` and `str` are the accesses that answer
only inside the array; code that is to be shown to stay inside is
written with them.
-/

namespace SlipBoard

/-- An array of `n` bytes, in a memory that goes on behind it: `byte i` is
the array's for `i < n` only. -/
structure Block (n : ℕ) where
  byte : ℕ → UInt8

namespace Block

variable {n : ℕ} {b : Block n} {lo len k i : ℕ} {v : UInt8}

/-- The `len` bytes from `lo` on, whether or not they are all inside the
array. -/
def slice (b : Block n) (lo len : ℕ) : List UInt8 :=
  (List.range len).map fun k => b.byte (lo + k)

/-- The string at `lo`: the bytes up to the first NUL, or up to the end
of the array. -/
def cstr (b : Block n) (lo : ℕ) : List UInt8 :=
  (b.slice lo (n - lo)).takeWhile (· ≠ 0)

/-- The array with one byte stored. -/
def set (b : Block n) (i : ℕ) (v : UInt8) : Block n := ⟨Function.update b.byte i v⟩

@[simp] theorem byte_set_self : (b.set i v).byte i = v := Function.update_self ..

@[simp] theorem byte_set_of_ne (h : k ≠ i) : (b.set i v).byte k = b.byte k :=
  Function.update_of_ne h ..

@[simp] theorem length_slice : (b.slice lo len).length = len := by
  simp [slice]

@[simp] theorem slice_zero : b.slice lo 0 = [] := rfl

/-- A slice in two parts, one behind the other. -/
theorem slice_add (m : ℕ) : b.slice lo (m + len) = b.slice lo m ++ b.slice (lo + m) len := by
  simp only [slice, List.range_add, List.map_append, List.map_map]
  congr 1
  refine List.map_congr_left fun k _ => ?_
  simp only [Function.comp_apply, Nat.add_assoc]

theorem slice_succ : b.slice lo (len + 1) = b.slice lo len ++ [b.byte (lo + len)] := by
  rw [slice_add]
  rfl

/-- Slices over cells that agree are equal, whatever the arrays hold
elsewhere. -/
theorem slice_congr {m : ℕ} {c : Block m} (h : ∀ k, k < len → b.byte (lo + k) = c.byte (lo + k)) :
    b.slice lo len = c.slice lo len :=
  List.map_congr_left fun k hk => h k (List.mem_range.1 hk)

/-- A store past a slice leaves it alone, and so a store behind an array
leaves its contents alone. -/
theorem slice_set_of_le (h : lo + len ≤ i) : (b.set i v).slice lo len = b.slice lo len :=
  slice_congr fun k hk => byte_set_of_ne (by omega)

/-- **The string an array holds** is the text in front of its first NUL, or
of its end where it has none. -/
theorem cstr_eq {text : List UInt8} (h : b.slice lo text.length = text) (hnul : 0 ∉ text)
    (hend : lo + text.length = n ∨ lo + text.length < n ∧ b.byte (lo + text.length) = 0) :
    b.cstr lo = text := by
  have hall : ∀ x ∈ text, (decide (x ≠ 0)) = true := by
    intro x hx
    simpa using fun h0 : x = 0 => hnul (h0 ▸ hx)
  -- the array ends behind the text, or a NUL stands there
  rcases hend with hend | ⟨hlt, hzero⟩
  · rw [cstr, show n - lo = text.length by omega, h, List.takeWhile_eq_self_iff]
    exact hall
  · rw [cstr, show n - lo = text.length + (1 + (n - lo - text.length - 1)) by omega, slice_add, h,
      List.takeWhile_append_of_pos hall, slice_add, slice_succ, slice_zero, Nat.add_zero, hzero]
    simp

/-! ## Checked accesses -/

/-- `b[i]`, with an answer only where the index is inside the array. -/
def load (b : Block n) (i : ℕ) : Option UInt8 := if i < n then some (b.byte i) else none

/-- `b[i] = v`, with an answer only where the index is inside the array. -/
def store (b : Block n) (i : ℕ) (v : UInt8) : Option (Block n) :=
  if i < n then some (b.set i v) else none

/-- The source of a copy: the bytes `b[lo .. lo + len)`, where all of them
are inside the array. -/
def read (b : Block n) (lo len : ℕ) : Option (List UInt8) :=
  if lo + len ≤ n then some (b.slice lo len) else none

/-- The array with the bytes from `lo` on replaced, and all others as they
are. -/
def overwrite (b : Block n) (lo : ℕ) (bs : List UInt8) : Block n :=
  ⟨fun k => if lo ≤ k ∧ k < lo + bs.length then bs.getD (k - lo) 0 else b.byte k⟩

/-- The target of a copy: `overwrite`, where all of the bytes fit the array. -/
def write (b : Block n) (lo : ℕ) (bs : List UInt8) : Option (Block n) :=
  if lo + bs.length ≤ n then some (b.overwrite lo bs) else none

/-- The string at `lo`, when its NUL is inside the array: a read of it stops
there. -/
def str (b : Block n) (lo : ℕ) : Option (List UInt8) :=
  if 0 ∈ b.slice lo (n - lo) then some (b.cstr lo) else none

variable {bs : List UInt8}

theorem load_of_lt (h : i < n) : b.load i = some (b.byte i) := if_pos h

theorem store_of_lt (h : i < n) : b.store i v = some (b.set i v) := if_pos h

theorem read_of_le (h : lo + len ≤ n) : b.read lo len = some (b.slice lo len) := if_pos h

theorem write_of_le (h : lo + bs.length ≤ n) : b.write lo bs = some (b.overwrite lo bs) := if_pos h

theorem str_of_byte_eq_zero (hlo : lo ≤ k) (hk : k < n) (h : b.byte k = 0) :
    b.str lo = some (b.cstr lo) := by
  refine if_pos (List.mem_map.2 ⟨k - lo, List.mem_range.2 (by omega), ?_⟩)
  rw [Nat.add_sub_cancel' hlo, h]

theorem byte_set (b : Block n) (i : ℕ) (v : UInt8) (k : ℕ) :
    (b.set i v).byte k = if k = i then v else b.byte k := by
  simp only [set, Function.update_apply]

theorem byte_overwrite (b : Block n) (lo : ℕ) (bs : List UInt8) (k : ℕ) :
    (b.overwrite lo bs).byte k =
      if lo ≤ k ∧ k < lo + bs.length then bs.getD (k - lo) 0 else b.byte k := rfl

/-- What has been written is what is read back from the same place on. -/
@[simp] theorem slice_overwrite : (b.overwrite lo bs).slice lo bs.length = bs := by
  refine List.ext_getElem (by simp) fun k hk _ => ?_
  have hk : k < bs.length := by simpa using hk
  simp [slice, byte_overwrite, hk]

theorem take_slice (m k : ℕ) : (b.slice lo (m + k)).take m = b.slice lo m := by
  rw [slice_add, List.take_left' length_slice]

theorem slice_overwrite_take (h : len ≤ bs.length) :
    (b.overwrite lo bs).slice lo len = bs.take len := by
  obtain ⟨d, hd⟩ := Nat.exists_eq_add_of_le h
  rw [← take_slice len d, ← hd, slice_overwrite]

/-- A write past a slice, or in front of it, leaves it alone. -/
theorem slice_overwrite_of_le (h : lo + len ≤ i) : (b.overwrite i bs).slice lo len = b.slice lo len :=
  slice_congr fun k hk => by rw [byte_overwrite, if_neg (by omega)]

theorem slice_overwrite_of_ge (h : i + bs.length ≤ lo) :
    (b.overwrite i bs).slice lo len = b.slice lo len :=
  slice_congr fun k hk => by rw [byte_overwrite, if_neg (by omega)]

/-- Two writes, one behind the other, are one write of both. -/
theorem overwrite_overwrite {cs : List UInt8} (h : i = lo + bs.length) :
    (b.overwrite lo bs).overwrite i cs = b.overwrite lo (bs ++ cs) := by
  subst h
  refine congrArg Block.mk (funext fun k => ?_)
  simp only [byte_overwrite, List.length_append]
  -- a cell in front of both writes, in the first, in the second, or behind them
  by_cases hlo : lo ≤ k
  · by_cases hmid : k < lo + bs.length
    · have hlt : k - lo < bs.length := by omega
      rw [if_neg (by omega), if_pos ⟨hlo, hmid⟩, if_pos ⟨hlo, by omega⟩]
      simp [List.getElem?_append_left hlt]
    · have hge : bs.length ≤ k - lo := by omega
      by_cases hhi : k < lo + bs.length + cs.length
      · rw [if_pos ⟨by omega, hhi⟩, if_pos ⟨hlo, by omega⟩, List.getD_eq_getElem?_getD,
          List.getD_eq_getElem?_getD, List.getElem?_append_right hge]
        congr 2
        omega
      · rw [if_neg (by omega), if_neg (by omega), if_neg (by omega)]
  · rw [if_neg (by omega), if_neg (by omega), if_neg (by omega)]

/-- A store is a write of one byte. -/
theorem set_eq_overwrite (b : Block n) (i : ℕ) (v : UInt8) : b.set i v = b.overwrite i [v] := by
  refine congrArg Block.mk (funext fun j => ?_)
  rw [List.length_singleton]
  by_cases hj : j = i
  · subst hj
    simp
  · rw [if_neg (by omega), Function.update_of_ne hj]

@[simp] theorem overwrite_nil : b.overwrite lo [] = b := by
  refine congrArg Block.mk (funext fun k => if_neg ?_)
  rw [List.length_nil]
  omega

/-- **A text written with a NUL** is the string that is there, where the
text has no NUL itself. -/
theorem cstr_overwrite_nul {text : List UInt8} (hnul : 0 ∉ text) (h : lo + text.length < n) :
    (b.overwrite lo (text ++ [0])).cstr lo = text := by
  refine cstr_eq ?_ hnul (Or.inr ⟨h, ?_⟩)
  · rw [slice_overwrite_take (by simp), List.take_left' rfl]
  · rw [byte_overwrite, if_pos (by rw [List.length_append, List.length_singleton]; omega),
      Nat.add_sub_cancel_left]
    simp

theorem str_overwrite_nul {text : List UInt8} (hnul : 0 ∉ text) (h : lo + text.length < n) :
    (b.overwrite lo (text ++ [0])).str lo = some text := by
  have hzero : (b.overwrite lo (text ++ [0])).byte (lo + text.length) = 0 := by
    rw [byte_overwrite, if_pos (by rw [List.length_append, List.length_singleton]; omega),
      Nat.add_sub_cancel_left]
    simp
  rw [str_of_byte_eq_zero (Nat.le_add_right _ _) h hzero, cstr_overwrite_nul hnul h]

/-- From one of its characters on, the string is what is left of the
text. -/
theorem str_overwrite_drop {text : List UInt8} (hnul : 0 ∉ text) (hk : k ≤ text.length)
    (h : lo + text.length < n) :
    (b.overwrite lo (text ++ [0])).str (lo + k) = some (text.drop k) := by
  have hsplit : b.overwrite lo (text ++ [0]) =
      (b.overwrite lo (text.take k)).overwrite (lo + k) (text.drop k ++ [0]) := by
    rw [overwrite_overwrite (by rw [List.length_take_of_le hk]), ← List.append_assoc,
      List.take_append_drop]
  rw [hsplit]
  refine str_overwrite_nul (fun hmem => hnul (List.mem_of_mem_drop hmem)) ?_
  rw [List.length_drop]
  omega

theorem getElem_slice (h : k < (b.slice lo len).length) : (b.slice lo len)[k] = b.byte (lo + k) := by
  simp [slice]

theorem getD_slice (h : k < len) (d : UInt8) : (b.slice lo len).getD k d = b.byte (lo + k) := by
  simp [slice, h]

theorem mem_slice : v ∈ b.slice lo len ↔ ∃ k, k < len ∧ b.byte (lo + k) = v := by
  simp [slice]

end Block

/-- The value of a string that fits an array of `cap` bytes with its
terminator. -/
structure CStr (cap : ℕ) where
  bytes : List UInt8
  noNul : 0 ∉ bytes
  fits : bytes.length < cap

/-- The empty string. -/
def CStr.empty {cap : ℕ} (h : 0 < cap) : CStr cap := ⟨[], by simp, h⟩

/-- A string literal of the source, whose characters are all ASCII. -/
def ascii (s : String) : List UInt8 := s.toList.map fun c => UInt8.ofNat c.toNat

end SlipBoard
