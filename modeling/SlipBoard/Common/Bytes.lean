import Mathlib.Data.List.Induction
import Mathlib.Tactic.Ring
/-!
# Numbers as bytes

A number in `n` bytes, the highest first (`bigEndian`) or the lowest
(`littleEndian`), the number a list of bytes stands for (`value`), and
words of `n` bytes one behind the other. A byte of such a row is found by
the number of its word and its place in it (`getElem?_concat`).
-/

namespace SlipBoard

namespace Bytes

variable {n w i j k : ℕ} {bs : List UInt8} {b : UInt8} {ws : List ℕ}

/-- The `n` low bytes of a number, the highest first. What does not fit them
is cut off. -/
def bigEndian : ℕ → ℕ → List UInt8
  | 0, _ => []
  | n + 1, w => bigEndian n (w / 256) ++ [UInt8.ofNat w]

/-- The number that a list of bytes stands for, the highest first. -/
def value (bs : List UInt8) : ℕ := bs.foldl (fun acc b => 256 * acc + b.toNat) 0

/-- Words of `n` bytes each, one behind the other, each with its highest
byte first. -/
def concat (n : ℕ) (ws : List ℕ) : List UInt8 := ws.flatMap (bigEndian n)

@[simp] theorem length_bigEndian : (bigEndian n w).length = n := by
  induction n generalizing w with
  | zero => rfl
  | succ n ih => rw [bigEndian, List.length_append, ih, List.length_singleton]

/-- The byte at a place, as a shift of the number gives it. -/
theorem getElem?_bigEndian (hj : j < n) :
    (bigEndian n w)[j]? = some (UInt8.ofNat (w >>> (8 * (n - j - 1)))) := by
  induction n generalizing w with
  | zero => omega
  | succ n ih =>
    rw [bigEndian]
    by_cases hlast : j < n
    · have hplace : 8 * (n + 1 - j - 1) = 8 + 8 * (n - j - 1) := by omega
      rw [List.getElem?_append_left (by rwa [length_bigEndian]), ih hlast, hplace,
        Nat.shiftRight_add, Nat.shiftRight_eq_div_pow w 8]
    · have hplace : n + 1 - j - 1 = 0 := by omega
      have hjn : j - n = 0 := by omega
      rw [List.getElem?_append_right (by rw [length_bigEndian]; omega), length_bigEndian, hplace,
        hjn]
      rfl

theorem value_append_singleton : value (bs ++ [b]) = 256 * value bs + b.toNat := by
  simp [value]

theorem value_lt : value bs < 256 ^ bs.length := by
  induction bs using List.reverseRecOn with
  | nil => simp [value]
  | append_singleton bs b ih =>
    have hb := b.toNat_lt
    rw [value_append_singleton, List.length_append, List.length_singleton, pow_succ]
    omega

/-- **The bytes of a number give it back**, where it fits them; else they
give its remainder. -/
theorem value_bigEndian (hw : w < 256 ^ n) : value (bigEndian n w) = w := by
  induction n generalizing w with
  | zero =>
    obtain rfl : w = 0 := by simpa using hw
    rfl
  | succ n ih =>
    have hdiv : w / 256 < 256 ^ n := by
      rw [pow_succ] at hw
      omega
    have hlow : (UInt8.ofNat w).toNat = w % 256 := by simp
    rw [bigEndian, value_append_singleton, ih hdiv, hlow]
    exact Nat.div_add_mod w 256

/-- What the lowest bytes of a number stand for is its remainder. -/
theorem value_bigEndian_mod (n w : ℕ) : value (bigEndian n w) = w % 256 ^ n := by
  induction n generalizing w with
  | zero =>
    rw [pow_zero, Nat.mod_one]
    rfl
  | succ n ih =>
    have hlow : (UInt8.ofNat w).toNat = w % 256 := by simp
    rw [bigEndian, value_append_singleton, ih, hlow, pow_succ', Nat.mod_mul]
    exact Nat.add_comm _ _

/-- The first byte is the highest of those that are kept. -/
theorem bigEndian_cons (n w : ℕ) :
    bigEndian (n + 1) w = UInt8.ofNat (w >>> (8 * n)) :: bigEndian n w := by
  induction n generalizing w with
  | zero => rfl
  | succ n ih =>
    rw [bigEndian, ih, bigEndian, List.cons_append, Nat.mul_succ, Nat.add_comm,
      Nat.shiftRight_add, Nat.shiftRight_eq_div_pow w 8]

theorem value_cons (b : UInt8) (bs : List UInt8) :
    value (b :: bs) = b.toNat * 256 ^ bs.length + value bs := by
  induction bs using List.reverseRecOn with
  | nil => simp [value]
  | append_singleton bs c ih =>
    rw [← List.cons_append, value_append_singleton, ih, value_append_singleton, List.length_append,
      List.length_singleton, pow_succ]
    ring

/-- The bytes the other way round, the lowest first, as the processor keeps
them. -/
def littleEndian (n w : ℕ) : List UInt8 := (bigEndian n w).reverse

theorem littleEndian_succ :
    littleEndian (n + 1) w = UInt8.ofNat w :: littleEndian n (w / 256) := by
  rw [littleEndian, bigEndian, List.reverse_append]
  rfl

theorem value_littleEndian (hw : w < 256 ^ n) : value (littleEndian n w).reverse = w := by
  rw [littleEndian, List.reverse_reverse, value_bigEndian hw]

/-- The bytes are those of the number they stand for, so that each row of
`n` bytes is one number's. -/
theorem bigEndian_value (bs : List UInt8) : bigEndian bs.length (value bs) = bs := by
  induction bs using List.reverseRecOn with
  | nil => rfl
  | append_singleton bs b ih =>
    have hb := b.toNat_lt
    have hdiv : (256 * value bs + b.toNat) / 256 = value bs := by omega
    have hlow : UInt8.ofNat (256 * value bs + b.toNat) = b := by
      refine UInt8.toNat_inj.1 ?_
      rw [UInt8.toNat_ofNat']
      omega
    rw [List.length_append, List.length_singleton, bigEndian, value_append_singleton, hdiv, hlow, ih]

theorem littleEndian_value (bs : List UInt8) : littleEndian bs.length (value bs.reverse) = bs := by
  have h := bigEndian_value bs.reverse
  rw [List.length_reverse] at h
  rw [littleEndian, h, List.reverse_reverse]

theorem bigEndian_zero : bigEndian n 0 = List.replicate n 0 := by
  induction n with
  | zero => rfl
  | succ n ih =>
    rw [bigEndian, Nat.zero_div, ih, List.replicate_succ']
    rfl

@[simp] theorem concat_nil : concat n [] = [] := rfl

@[simp] theorem concat_cons : concat n (w :: ws) = bigEndian n w ++ concat n ws := rfl

theorem concat_append {ws' : List ℕ} : concat n (ws ++ ws') = concat n ws ++ concat n ws' :=
  List.flatMap_append

@[simp] theorem length_concat : (concat n ws).length = n * ws.length := by
  induction ws with
  | nil => rfl
  | cons w ws ih =>
    rw [concat_cons, List.length_append, length_bigEndian, ih, List.length_cons]
    ring

/-- **A byte of the row**, by its word and its place: the word is the one
the byte lies in, and the place is counted from its highest byte. -/
theorem getElem?_concat (hn : 0 < n) (hw : ws[i / n]? = some w) :
    (concat n ws)[i]? = some (UInt8.ofNat (w >>> (8 * (n - i % n - 1)))) := by
  induction ws generalizing i with
  | nil => simp at hw
  | cons v ws ih =>
    rw [concat_cons]
    by_cases hi : i < n
    · rw [Nat.div_eq_of_lt hi, List.getElem?_cons_zero] at hw
      obtain rfl := Option.some.inj hw
      rw [List.getElem?_append_left (by rwa [length_bigEndian]), getElem?_bigEndian hi,
        Nat.mod_eq_of_lt hi]
    · obtain ⟨m, rfl⟩ := Nat.exists_eq_add_of_le (not_lt.1 hi)
      rw [Nat.add_div_left m hn, List.getElem?_cons_succ] at hw
      rw [List.getElem?_append_right (by rw [length_bigEndian]; omega), length_bigEndian,
        Nat.add_sub_cancel_left, ih hw, Nat.add_mod_left]

theorem concat_replicate_zero : concat n (List.replicate k 0) = List.replicate (n * k) 0 := by
  induction k with
  | zero => rfl
  | succ k ih =>
    rw [List.replicate_succ, concat_cons, ih, bigEndian_zero, List.replicate_append_replicate,
      Nat.mul_succ, Nat.add_comm]

/-- The next byte of a number, in 32 bits. -/
theorem shiftLeft_or (hw : w < 2 ^ 24) (b : UInt8) :
    (w <<< 8) % 2 ^ 32 ||| b.toNat = 256 * w + b.toNat := by
  have hb : b.toNat < 2 ^ 8 := b.toNat_lt
  have hshift : w <<< 8 = 256 * w := by
    rw [Nat.shiftLeft_eq, Nat.mul_comm]
  have hcut : (w <<< 8) % 2 ^ 32 = w <<< 8 := Nat.mod_eq_of_lt (by omega)
  rw [hcut, ← Nat.shiftLeft_add_eq_or_of_lt hb, hshift]

/-- The same in a word of `w` bits, which the number may leave. -/
theorem shiftLeft_or_mod {w : ℕ} (hw : 8 ≤ w) (v : ℕ) (b : UInt8) :
    (v <<< 8) % 2 ^ w ||| b.toNat = (256 * v + b.toNat) % 2 ^ w := by
  obtain ⟨m, rfl⟩ := Nat.exists_eq_add_of_le' hw
  have hb : b.toNat < 2 ^ 8 := b.toNat_lt
  have hcut : (v <<< 8) % 2 ^ (m + 8) = (v % 2 ^ m) <<< 8 := by
    rw [Nat.shiftLeft_eq, Nat.shiftLeft_eq, pow_add, Nat.mul_mod_mul_right]
  have hlow : (256 * v + b.toNat) % 2 ^ (m + 8) = 256 * (v % 2 ^ m) + b.toNat := by
    have hdiv : (256 * v + b.toNat) / 256 = v := by omega
    have hmod : (256 * v + b.toNat) % 256 = b.toNat := by omega
    rw [Nat.add_comm m 8, pow_add, Nat.mod_mul, show (2 : ℕ) ^ 8 = 256 from rfl, hdiv, hmod,
      Nat.add_comm]
  rw [hcut, hlow, ← Nat.shiftLeft_add_eq_or_of_lt hb, Nat.shiftLeft_eq, Nat.mul_comm]

end Bytes

end SlipBoard
