import SlipBoard.Shell.Model.Command
import Mathlib.Data.Nat.Bitwise
/-!
# Shell — what an ID tells of a name

An ID is a number of five digits, of widths `6`, `5`, `5`, `8` and `8`
(`UnCmd.toNat_ID`). The second tells the length of a name of at most 31
characters (`cmdLen_nameID`). The first is what is left of the first
character, so that IDs in order have their first digits in order
(`firstBits_le`).
-/

namespace SlipBoard

namespace Shell

variable {word : List UInt8} {u v : UnCmd}

/-- One digit behind the others: the concatenation of two bit vectors, as a
number. -/
theorem toNat_append {m n : ℕ} (x : BitVec m) (y : BitVec n) :
    (x ++ y).toNat = x.toNat * 2 ^ n + y.toNat := by
  rw [BitVec.toNat_append, ← Nat.shiftLeft_add_eq_or_of_lt y.isLt, Nat.shiftLeft_eq]

/-- **The digits of an ID**: its first character, the length, the sum and
the two checks are the digits of one number, so its order is that of the
lists of them. -/
theorem UnCmd.toNat_ID (u : UnCmd) : u.ID.toNat =
    (((u.firstChar.toNat * 2 ^ 5 + u.len.toNat) * 2 ^ 5 + u.sum.toNat) * 2 ^ 8 +
      u.crc1.toNat) * 2 ^ 8 + u.crc2.toNat := by
  show (u.firstChar ++ u.len ++ u.sum ++ u.crc1 ++ u.crc2).toNat = _
  simp only [toNat_append]

/-- The first digit and the second of an ID are the first character and the
length of the name. -/
theorem UnCmd.digits (u : UnCmd) : u.ID.toNat / 2 ^ 26 = u.firstChar.toNat ∧
    u.ID.toNat / 2 ^ 21 % 2 ^ 5 = u.len.toNat := by
  have hID := u.toNat_ID
  have hlen := u.len.isLt
  have hsum := u.sum.isLt
  have hcrc1 := u.crc1.isLt
  have hcrc2 := u.crc2.isLt
  constructor
  · omega
  · omega

/-! ## Length -/

/-- The bits that `SHELL_CMD_LEN` takes from an ID are its second digit. -/
theorem cmdLen_ID (u : UnCmd) : ((u.ID >>> 21) &&& 0x001F).toNat = u.len.toNat := by
  rw [UInt32.toNat_and, UInt32.toNat_shiftRight, Nat.shiftRight_eq_div_pow, ← u.digits.2]
  exact Nat.and_two_pow_sub_one_eq_mod _ 5

theorem nameSums_len : ∀ {word : List UInt8} {a : Sums}, 0 ∉ word →
    (nameSums word a).len = a.len + UInt32.ofNat word.length := by
  intro word
  induction word with
  | nil =>
    intro a _
    exact (UInt32.add_zero _).symm
  | cons c word ih =>
    intro a hnul
    rw [List.mem_cons, not_or] at hnul
    rw [nameSums, if_neg (Ne.symm hnul.1), ih hnul.2, List.length_cons, UInt32.ofNat_add]
    show a.len + 1 + _ = _
    rw [UInt32.add_assoc, UInt32.add_comm 1]
    rfl

/-- **The length of a name** that is short enough for its five bits. -/
theorem cmdLen_nameID (hnul : 0 ∉ word) (hshort : word.length ≤ 31) :
    ((nameID word >>> 21) &&& 0x001F).toNat = word.length := by
  rw [nameID, cmdLen_ID]
  show ((nameSums word .zero).len.toBitVec.setWidth 5).toNat = _
  rw [nameSums_len hnul, BitVec.toNat_setWidth, UInt32.toNat_toBitVec]
  show (0 + UInt32.ofNat word.length).toNat % 2 ^ 5 = _
  rw [UInt32.zero_add, UInt32.toNat_ofNat_of_lt' (hshort.trans_lt (by decide))]
  exact Nat.mod_eq_of_lt (by omega)

/-! ## First character -/

/-- The first digit, in its place. -/
abbrev firstBits (cmdindex : UInt32) : UInt32 := cmdindex &&& 0xfc000000

theorem toNat_firstBits (cmdindex : UInt32) :
    (firstBits cmdindex).toNat = cmdindex.toNat / 2 ^ 26 * 2 ^ 26 := by
  have hlt := cmdindex.toNat_lt
  show (cmdindex &&& 0xfc000000).toNat = _
  rw [UInt32.toNat_and, show (0xfc000000 : UInt32).toNat = (2 ^ 6 - 1) * 2 ^ 26 from rfl]
  refine Nat.eq_of_testBit_eq fun i => ?_
  rw [Nat.testBit_and, Nat.testBit_mul_two_pow, Nat.testBit_mul_two_pow, Nat.testBit_div_two_pow,
    Nat.testBit_two_pow_sub_one]
  by_cases hi : 26 ≤ i
  · rw [Nat.sub_add_cancel hi]
    by_cases hhigh : i - 26 < 6
    · simp [hi, hhigh]
    · have hzero : cmdindex.toNat.testBit i = false :=
        Nat.testBit_lt_two_pow (hlt.trans_le (Nat.pow_le_pow_right (by decide) (by omega)))
      simp [hzero]
  · simp [hi]

/-- **Order keeps the first digits in order**, so that the commands with one
first character stand together. -/
theorem firstBits_le {a b : UInt32} (h : a ≤ b) : firstBits a ≤ firstBits b := by
  rw [UInt32.le_iff_toNat_le, toNat_firstBits, toNat_firstBits]
  have hle := UInt32.le_iff_toNat_le.1 h
  exact Nat.mul_le_mul_right _ (Nat.div_le_div_right hle)

/-- `(uint32_t)c << 26` is what the ID of a name that begins with `c` has
there. -/
theorem firstBits_nameID (word : List UInt8) :
    firstBits (nameID word) = (word.headD 0).toUInt32 <<< 26 := by
  have hdigit : (nameID word).toNat / 2 ^ 26 = (word.headD 0).toNat % 2 ^ 6 := by
    rw [nameID, (UnCmd.digits _).1]
    exact BitVec.toNat_setWidth ..
  refine UInt32.toNat_inj.1 ?_
  rw [toNat_firstBits, hdigit, UInt32.toNat_shiftLeft, Nat.shiftLeft_eq]
  show _ = (word.headD 0).toNat * 2 ^ 26 % 2 ^ 32
  exact (Nat.mul_mod_mul_right (2 ^ 26) _ (2 ^ 6)).symm

end Shell

end SlipBoard
