import Mathlib.Data.List.TakeWhile
/-!
# Numerals in C strings

The conversions of the C library, on strings without their NUL. What
they read is blanks, a sign, for base 16 a `0x`, and digits (`subject`);
what is behind is left. A string they read to its end is a numeral
(`Reads`), and one that is digits alone is a plain one (`Plain`).
-/

namespace SlipBoard

namespace Numerals

/-- `isspace`. -/
def isSpace (c : UInt8) : Bool := c = 32 || 9 ≤ c && c ≤ 13

/-- The value of a digit or a letter, as the conversions count it: `a` and
`A` are ten. Other characters have none. -/
def digitVal (c : UInt8) : Option ℕ :=
  if 48 ≤ c ∧ c ≤ 57 then some (c.toNat - 48)
  else if 97 ≤ c ∧ c ≤ 122 then some (c.toNat - 87)
  else if 65 ≤ c ∧ c ≤ 90 then some (c.toNat - 55)
  else none

/-- A digit of the base: a character whose value is below it. -/
def isDigit (base : ℕ) (c : UInt8) : Bool := (digitVal c).any (· < base)

/-- What a row of digits denotes in the base, the highest first. -/
def magnitude (base : ℕ) (ds : List UInt8) : ℕ :=
  ds.foldl (fun v c => v * base + (digitVal c).getD 0) 0

/-- Whether there is a minus, and how long the sign is. -/
def signOf : List UInt8 → Bool × ℕ
  | 45 :: _ => (true, 1)
  | 43 :: _ => (false, 1)
  | _ => (false, 0)

/-- How long the `0x` of base 16 is. Without a digit behind it, it is
none. -/
def markLen (base : ℕ) : List UInt8 → ℕ
  | 48 :: x :: c :: _ => if base = 16 ∧ (x = 120 ∨ x = 88) ∧ isDigit 16 c then 2 else 0
  | _ => 0

/-- What a conversion reads: its sign, its digits, and how far it goes. -/
structure Subject where
  neg : Bool
  digits : List UInt8
  used : ℕ

/-- The subject of a conversion: behind blanks, a sign and a mark, as many
digits as there are. Without a digit there is none. -/
def subject (base : ℕ) (s : List UInt8) : Option Subject :=
  let blanks := (s.takeWhile isSpace).length
  let (neg, sign) := signOf (s.drop blanks)
  let front := blanks + sign + markLen base (s.drop (blanks + sign))
  let digits := (s.drop front).takeWhile (isDigit base)
  if digits = [] then none else some ⟨neg, digits, front + digits.length⟩

/-- What `strtoul` answers: the value, where it has stopped, and whether
the digits denote too much. -/
structure Converted where
  value : ℕ
  used : ℕ
  erange : Bool

/-- `strtoul`, where `max` is `ULONG_MAX`. A minus negates in the
unsigned type. -/
def strtoul (max : ℕ) (s : List UInt8) (base : ℕ) : Converted :=
  match subject base s with
  | none => ⟨0, 0, false⟩
  | some r =>
    if max < magnitude base r.digits then ⟨max, r.used, true⟩
    else if r.neg then ⟨(max + 1 - magnitude base r.digits) % (max + 1), r.used, false⟩
    else ⟨magnitude base r.digits, r.used, false⟩

/-- `strtol`, where `max` is `LONG_MAX`. What is out of range is the bound
on its side. -/
def strtol (max : ℕ) (s : List UInt8) (base : ℕ) : ℤ :=
  match subject base s with
  | none => 0
  | some r =>
    if r.neg then -(min (magnitude base r.digits) (max + 1) : ℕ)
    else min (magnitude base r.digits) max

/-- The string is a numeral: blanks, a sign, for base 16 a mark, and
digits up to the end. -/
def Reads (base : ℕ) (s : List UInt8) (neg : Bool) (digits : List UInt8) : Prop :=
  ∃ blanks sign mark, s = blanks ++ sign ++ mark ++ digits ∧ (∀ c ∈ blanks, isSpace c = true) ∧
    (sign = [] ∧ neg = false ∨ sign = [43] ∧ neg = false ∨ sign = [45] ∧ neg = true) ∧
    (mark = [] ∨ base = 16 ∧ (mark = [48, 120] ∨ mark = [48, 88])) ∧
    digits ≠ [] ∧ ∀ c ∈ digits, isDigit base c = true

/-- The string is digits of the base, at least one, and nothing else. -/
def Plain (base : ℕ) (s : List UInt8) : Prop := s ≠ [] ∧ ∀ c ∈ s, isDigit base c = true

variable {base : ℕ} {s blanks sign mark digits rest : List UInt8} {c : UInt8} {neg : Bool}

theorem Plain.reads (h : Plain base s) : Reads base s false s :=
  ⟨[], [], [], rfl, by simp, Or.inl ⟨rfl, rfl⟩, Or.inl rfl, h.1, h.2⟩

/-! ## The characters -/

theorem le_of_isDigit (h : isDigit base c = true) : 48 ≤ c := by
  unfold isDigit digitVal at h
  by_contra hlt
  have hlt : c.toNat < 48 := by simpa [UInt8.le_iff_toNat_le] using hlt
  have h1 : ¬ (48 ≤ c ∧ c ≤ 57) := by simp [UInt8.le_iff_toNat_le]; omega
  have h2 : ¬ (97 ≤ c ∧ c ≤ 122) := by simp [UInt8.le_iff_toNat_le]; omega
  have h3 : ¬ (65 ≤ c ∧ c ≤ 90) := by simp [UInt8.le_iff_toNat_le]; omega
  simp [h1, h2, h3] at h

theorem isSpace_of_le (h : 48 ≤ c) : isSpace c = false := by
  have hle : 48 ≤ c.toNat := by simpa [UInt8.le_iff_toNat_le] using h
  have hne : c ≠ 32 := by
    rintro rfl
    simp at hle
  simp [isSpace, hne, UInt8.le_iff_toNat_le]
  omega

/-- A run of characters of a class, with one behind it that is not. -/
theorem takeWhile_append_stop {p : UInt8 → Bool} {l : List UInt8} (hall : ∀ x ∈ l, p x = true)
    (hstop : ∀ x ∈ rest.head?, p x = false) : (l ++ rest).takeWhile p = l := by
  rw [List.takeWhile_append_of_pos hall]
  cases rest with
  | nil => rw [List.takeWhile_nil, List.append_nil]
  | cons x rest => rw [List.takeWhile_cons_of_neg (by simp [hstop x rfl]), List.append_nil]

/-! ## What a conversion reads -/

theorem signOf_eq (l : List UInt8) : signOf l = (false, 0) ∨
    (∃ rest, l = 43 :: rest ∧ signOf l = (false, 1)) ∨
    ∃ rest, l = 45 :: rest ∧ signOf l = (true, 1) := by
  unfold signOf
  split
  · exact Or.inr (Or.inr ⟨_, rfl, rfl⟩)
  · exact Or.inr (Or.inl ⟨_, rfl, rfl⟩)
  · exact Or.inl rfl

theorem signOf_of_head (h : ∀ x ∈ rest.head?, 48 ≤ x) : signOf rest = (false, 0) := by
  rcases signOf_eq rest with h0 | ⟨l, rfl, -⟩ | ⟨l, rfl, -⟩
  · exact h0
  · exact absurd (h 43 rfl) (by decide)
  · exact absurd (h 45 rfl) (by decide)

theorem markLen_eq (base : ℕ) (l : List UInt8) : markLen base l = 0 ∨
    base = 16 ∧ markLen base l = 2 ∧ ∃ rest, l = [48, 120] ++ rest ∨ l = [48, 88] ++ rest := by
  unfold markLen
  split
  · split
    · rename_i x c rest hmark
      obtain ⟨hbase, hx, -⟩ := hmark
      refine Or.inr ⟨hbase, rfl, c :: rest, ?_⟩
      rcases hx with rfl | rfl
      · exact Or.inl rfl
      · exact Or.inr rfl
    · exact Or.inl rfl
  · exact Or.inl rfl

theorem markLen_of_digits (h : ∀ c ∈ digits, isDigit base c = true) : markLen base digits = 0 := by
  rcases markLen_eq base digits with h0 | ⟨rfl, -, rest, rfl | rfl⟩
  · exact h0
  · exact absurd (h 120 (by simp)) (by decide)
  · exact absurd (h 88 (by simp)) (by decide)

/-- **A numeral is read to its end**: a blank front, a sign, a prefix and
digits are all of it. -/
theorem subject_of_reads (h : Reads base s neg digits) :
    subject base s = some ⟨neg, digits, s.length⟩ := by
  obtain ⟨blanks, sign, mark, rfl, hblanks, hsign, hmark, hne, hdigits⟩ := h
  obtain ⟨d, ds, rfl⟩ := List.exists_cons_of_ne_nil hne
  have hd : 48 ≤ d := le_of_isDigit (hdigits d List.mem_cons_self)
  -- what stands behind the sign begins with a digit
  have hhead : ∀ x ∈ (mark ++ d :: ds).head?, 48 ≤ x := by
    rcases hmark with rfl | ⟨-, rfl | rfl⟩ <;> simp [hd]
  have hmarkLen : markLen base (mark ++ d :: ds) = mark.length := by
    rcases hmark with rfl | ⟨rfl, rfl | rfl⟩
    · exact markLen_of_digits hdigits
    · simp [markLen, hdigits d List.mem_cons_self]
    · simp [markLen, hdigits d List.mem_cons_self]
  have hsignOf : signOf (sign ++ (mark ++ d :: ds)) = (neg, sign.length) := by
    rcases hsign with ⟨rfl, rfl⟩ | ⟨rfl, rfl⟩ | ⟨rfl, rfl⟩
    · exact signOf_of_head hhead
    · rfl
    · rfl
  have hstop : ∀ x ∈ (sign ++ (mark ++ d :: ds)).head?, isSpace x = false := by
    rcases hsign with ⟨rfl, -⟩ | ⟨rfl, -⟩ | ⟨rfl, -⟩
    · exact fun x hx => isSpace_of_le (hhead x hx)
    · simp [isSpace]
    · simp [isSpace]
  have hall : (d :: ds).takeWhile (isDigit base) = d :: ds := List.takeWhile_eq_self_iff.2 hdigits
  have hfirst : (blanks ++ sign ++ mark ++ d :: ds).takeWhile isSpace = blanks := by
    rw [List.append_assoc, List.append_assoc]
    exact takeWhile_append_stop hblanks hstop
  have hdrop : (blanks ++ sign ++ mark ++ d :: ds).drop blanks.length =
      sign ++ (mark ++ d :: ds) := by
    rw [List.append_assoc, List.append_assoc, List.drop_left]
  have hdrop₂ : (blanks ++ sign ++ mark ++ d :: ds).drop (blanks.length + sign.length) =
      mark ++ d :: ds := by
    rw [← List.drop_drop, hdrop, List.drop_left]
  have hdrop₃ : (blanks ++ sign ++ mark ++ d :: ds).drop
      (blanks.length + sign.length + mark.length) = d :: ds := by
    rw [← List.drop_drop, hdrop₂, List.drop_left]
  simp only [subject, hfirst, hdrop, hsignOf, hdrop₂, hmarkLen, hdrop₃, hall]
  simp [Nat.add_assoc]

/-- **What is read to its end is a numeral**, with the sign and the digits
that were found. -/
theorem reads_of_subject {r : Subject} (h : subject base s = some r) (hused : r.used = s.length) :
    Reads base s r.neg r.digits := by
  unfold subject at h
  generalize hblanks : (s.takeWhile isSpace).length = n at h
  rcases hsign : signOf (s.drop n) with ⟨neg, k⟩
  generalize hmark : markLen base (s.drop (n + k)) = m at h
  simp only [hsign, hmark] at h
  split at h
  · cases h
  rename_i hne
  obtain rfl := Option.some.inj h
  have hprefix := List.takeWhile_prefix (l := s.drop (n + k + m)) (isDigit base)
  have hlen : ((s.drop (n + k + m)).takeWhile (isDigit base)).length =
      (s.drop (n + k + m)).length := by
    have hle := hprefix.length_le
    have hpos := List.length_pos_iff.2 hne
    rw [List.length_drop] at hle ⊢
    dsimp only at hused
    omega
  have hall := hprefix.eq_of_length hlen
  have hblank : s.take n = s.takeWhile isSpace := by
    rw [← hblanks]
    exact (List.prefix_iff_eq_take.1 (List.takeWhile_prefix _)).symm
  refine ⟨s.take n, (s.drop n).take k, (s.drop (n + k)).take m, ?_, ?_, ?_, ?_, hne, ?_⟩
  · dsimp only
    rw [hall]
    simp only [← List.drop_drop, List.append_assoc, List.take_append_drop]
  · rw [hblank]
    exact fun c hc => List.mem_takeWhile_imp hc
  · rcases signOf_eq (s.drop n) with h0 | ⟨rest, hrest, h1⟩ | ⟨rest, hrest, h1⟩
    · obtain ⟨rfl, rfl⟩ := Prod.mk.inj (hsign.symm.trans h0)
      exact Or.inl ⟨rfl, rfl⟩
    · obtain ⟨rfl, rfl⟩ := Prod.mk.inj (hsign.symm.trans h1)
      exact Or.inr (Or.inl ⟨by rw [hrest]; rfl, rfl⟩)
    · obtain ⟨rfl, rfl⟩ := Prod.mk.inj (hsign.symm.trans h1)
      exact Or.inr (Or.inr ⟨by rw [hrest]; rfl, rfl⟩)
  · rcases markLen_eq base (s.drop (n + k)) with h0 | ⟨hbase, h2, rest, hrest⟩
    · rw [h0] at hmark
      subst hmark
      exact Or.inl rfl
    · rw [h2] at hmark
      subst hmark
      refine Or.inr ⟨hbase, ?_⟩
      rcases hrest with hrest | hrest
      · exact Or.inl (by rw [hrest]; rfl)
      · exact Or.inr (by rw [hrest]; rfl)
  · exact fun c hc => List.mem_takeWhile_imp hc

/-- The digits of a subject are a run somewhere in the string, and the
end of it. -/
theorem subject_digits {r : Subject} (h : subject base s = some r) :
    ∃ front, r.digits = (s.drop front).takeWhile (isDigit base) ∧ r.digits ≠ [] ∧
      r.used = front + r.digits.length := by
  unfold subject at h
  rcases hsign : signOf (s.drop (s.takeWhile isSpace).length) with ⟨neg, k⟩
  simp only [hsign] at h
  split at h
  · cases h
  rename_i hne
  obtain rfl := Option.some.inj h
  exact ⟨_, rfl, hne, rfl⟩

theorem used_le {r : Subject} (h : subject base s = some r) : r.used ≤ s.length := by
  obtain ⟨front, hdigits, hne, hused⟩ := subject_digits h
  have hle := (List.takeWhile_prefix (l := s.drop front) (isDigit base)).length_le
  have hpos := List.length_pos_iff.2 hne
  rw [← hdigits, List.length_drop] at hle
  omega

/-! ## The unsigned conversion -/

variable {max v : ℕ}

/-- The string is a numeral to its end, in range, and stands for `v`. -/
def Denotes (max base : ℕ) (s : List UInt8) (v : ℕ) : Prop :=
  ∃ neg digits, Reads base s neg digits ∧ magnitude base digits ≤ max ∧
    v = if neg then (max + 1 - magnitude base digits) % (max + 1) else magnitude base digits

theorem Plain.denotes (h : Plain base s) (hmax : magnitude base s ≤ max) :
    Denotes max base s (magnitude base s) := ⟨false, s, h.reads, hmax, rfl⟩

/-- A numeral without blanks, sign and mark denotes what its digits
say. -/
theorem Plain.of_denotes (h : Plain base s) (hv : Denotes max base s v) :
    v = magnitude base s ∧ v ≤ max := by
  obtain ⟨neg, digits, hreads, hmax, rfl⟩ := hv
  have hsubject := (subject_of_reads h.reads).symm.trans (subject_of_reads hreads)
  simp only [Option.some.injEq, Subject.mk.injEq] at hsubject
  obtain ⟨rfl, rfl, -⟩ := hsubject
  exact ⟨rfl, hmax⟩

/-- **`strtoul` goes to the end** of an empty string, and of the numerals
in range. -/
theorem strtoul_eq_iff (max : ℕ) (s : List UInt8) (base v : ℕ) :
    strtoul max s base = ⟨v, s.length, false⟩ ↔ s = [] ∧ v = 0 ∨ Denotes max base s v := by
  constructor
  · intro h
    unfold strtoul at h
    cases hsubject : subject base s with
    | none =>
      rw [hsubject] at h
      simp only [Converted.mk.injEq] at h
      exact Or.inl ⟨List.length_eq_zero_iff.1 h.2.1.symm, h.1.symm⟩
    | some r =>
      simp only [hsubject] at h
      split at h
      · simp at h
      rename_i hmax
      have hused : r.used = s.length := by
        split at h <;> exact (Converted.mk.inj h).2.1
      refine Or.inr ⟨r.neg, r.digits, reads_of_subject hsubject hused, Nat.le_of_not_lt hmax, ?_⟩
      split at h
      · rw [if_pos ‹_›]
        exact (Converted.mk.inj h).1.symm
      · rw [if_neg ‹_›]
        exact (Converted.mk.inj h).1.symm
  · rintro (⟨rfl, rfl⟩ | ⟨neg, digits, hreads, hmax, rfl⟩)
    · rfl
    · unfold strtoul
      rw [subject_of_reads hreads]
      simp only [Nat.not_lt.2 hmax, if_false]
      split <;> rfl

theorem strtoul_used_le : (strtoul max s base).used ≤ s.length := by
  unfold strtoul
  cases hsubject : subject base s with
  | none => exact Nat.zero_le _
  | some r =>
    have hle := used_le hsubject
    dsimp only
    split
    · exact hle
    · split <;> exact hle

/-- Every number has a decimal numeral, which is plain. -/
theorem exists_plain (w : ℕ) : ∃ s, Plain 10 s ∧ magnitude 10 s = w := by
  have hdigit : ∀ d < 10, isDigit 10 (UInt8.ofNat (48 + d)) = true ∧
      digitVal (UInt8.ofNat (48 + d)) = some d := by
    decide
  induction w using Nat.strongRecOn with
  | ind w ih =>
    obtain ⟨hlast, hval⟩ := hdigit (w % 10) (Nat.mod_lt _ (by omega))
    by_cases hw : w < 10
    · rw [Nat.mod_eq_of_lt hw] at hlast hval
      refine ⟨[UInt8.ofNat (48 + w)], ⟨by simp, fun c hc => ?_⟩, ?_⟩
      · rw [List.mem_singleton.1 hc]
        exact hlast
      · rw [magnitude, List.foldl_cons, List.foldl_nil, hval, Option.getD_some, Nat.zero_mul,
          Nat.zero_add]
    · obtain ⟨s, hs, hmag⟩ := ih (w / 10) (by omega)
      refine ⟨s ++ [UInt8.ofNat (48 + w % 10)], ⟨by simp, fun c hc => ?_⟩, ?_⟩
      · rcases List.mem_append.1 hc with hc | hc
        · exact hs.2 c hc
        · rw [List.mem_singleton.1 hc]
          exact hlast
      · have happend : magnitude 10 (s ++ [UInt8.ofNat (48 + w % 10)]) =
            magnitude 10 s * 10 + (digitVal (UInt8.ofNat (48 + w % 10))).getD 0 := by
          rw [magnitude, List.foldl_append, List.foldl_cons, List.foldl_nil, ← magnitude]
        rw [happend, hmag, hval, Option.getD_some]
        omega

end Numerals

end SlipBoard
