import SlipBoard.Common.Block
/-!
# Words in a byte array

The words of a range of an array are its maximal runs of non-zero bytes.
A run is named by the cell it starts at (`isStart`), so a scanner that
answers pointers and a reader that wants texts speak of the same list
(`starts`, `words`). The string at a start agrees with the word there
exactly when the word ends inside the range or at its end a zero stands
(`cstr_eq_wordAt_iff`).
-/

namespace SlipBoard

namespace Block

variable {n limit lo hi k : ℕ} {b : Block n}

/-- A run starts here: a byte that is not zero, first in the array or
behind a zero. -/
def isStart (b : Block n) (k : ℕ) : Bool := b.byte k ≠ 0 && (k = 0 || b.byte (k - 1) = 0)

/-- The starts in `lo .. hi`. -/
def startsIn (b : Block n) (lo hi : ℕ) : List ℕ := (List.range' lo (hi - lo)).filter b.isStart

/-- The starts in front of `limit`. -/
def starts (b : Block n) (limit : ℕ) : List ℕ := b.startsIn 0 limit

/-- The run that starts at `k`, up to `limit`. -/
def wordAt (b : Block n) (limit k : ℕ) : List UInt8 :=
  (b.slice k (limit - k)).takeWhile (· ≠ 0)

/-- **The words** in front of `limit`, in order. -/
def words (b : Block n) (limit : ℕ) : List (List UInt8) := (b.starts limit).map (b.wordAt limit)

theorem isStart_iff : b.isStart k = true ↔ b.byte k ≠ 0 ∧ (k = 0 ∨ b.byte (k - 1) = 0) := by
  simp [isStart]

theorem mem_startsIn : k ∈ b.startsIn lo hi ↔ (lo ≤ k ∧ k < hi) ∧ b.isStart k = true := by
  rw [startsIn, List.mem_filter, List.mem_range'_1]
  constructor
  · rintro ⟨⟨hlo, hhi⟩, hst⟩
    exact ⟨⟨hlo, by omega⟩, hst⟩
  · rintro ⟨⟨hlo, hhi⟩, hst⟩
    exact ⟨⟨hlo, by omega⟩, hst⟩

theorem startsIn_self : b.startsIn lo lo = [] := by
  simp [startsIn]

/-- A range in two parts: the starts of the one, and then those of the
other. -/
theorem startsIn_append {mid : ℕ} (hlo : lo ≤ mid) (hmid : mid ≤ hi) :
    b.startsIn lo hi = b.startsIn lo mid ++ b.startsIn mid hi := by
  have hsplit := List.range'_append_1 (s := lo) (m := mid - lo) (n := hi - mid)
  rw [show lo + (mid - lo) = mid by omega, show mid - lo + (hi - mid) = hi - lo by omega] at hsplit
  rw [startsIn, ← hsplit, List.filter_append, startsIn, startsIn]

/-- Cells that start no run are passed over, however many there are. -/
theorem startsIn_skip {mid : ℕ} (hlo : lo ≤ mid) (hmid : mid ≤ hi)
    (h : ∀ k, lo ≤ k → k < mid → b.isStart k = false) : b.startsIn lo hi = b.startsIn mid hi := by
  have hfront : b.startsIn lo mid = [] := by
    rw [startsIn, List.filter_eq_nil_iff]
    intro k hk
    rw [List.mem_range'_1] at hk
    simp [h k hk.1 (by omega)]
  rw [startsIn_append hlo hmid, hfront, List.nil_append]

/-- A start at the front of the range leads the list. -/
theorem startsIn_cons (h : lo < hi) (hst : b.isStart lo = true) :
    b.startsIn lo hi = lo :: b.startsIn (lo + 1) hi := by
  rw [startsIn, show hi - lo = hi - (lo + 1) + 1 by omega, List.range'_succ,
    List.filter_cons_of_pos hst, startsIn]

/-- The run that goes on up to the limit has the last start. -/
theorem starts_eq_concat (hk : k < limit) (hst : b.isStart k = true)
    (hrun : ∀ i, k ≤ i → i < limit → b.byte i ≠ 0) : b.starts limit = b.starts k ++ [k] := by
  have hskip : b.startsIn (k + 1) limit = b.startsIn limit limit := by
    refine startsIn_skip hk (Nat.le_refl limit) fun i hi hlt => ?_
    have hprev := hrun (i - 1) (by omega) (by omega)
    simp [isStart, hprev]
    omega
  rw [starts, startsIn_append (Nat.zero_le k) hk.le, startsIn_cons hk hst, hskip, startsIn_self]
  rfl

/-- Every byte that is not zero lies in a run: going back from it, one
meets the start. -/
theorem exists_start (hk : b.byte k ≠ 0) :
    ∃ j, j ≤ k ∧ b.isStart j = true ∧ ∀ i, j ≤ i → i ≤ k → b.byte i ≠ 0 := by
  induction k with
  | zero => exact ⟨0, Nat.le_refl 0, isStart_iff.2 ⟨hk, Or.inl rfl⟩, fun i _ hi => by
      rw [Nat.le_zero.1 hi]; exact hk⟩
  | succ k ih =>
    by_cases hprev : b.byte k = 0
    · refine ⟨k + 1, Nat.le_refl _, isStart_iff.2 ⟨hk, Or.inr hprev⟩, fun i hlo hhi => ?_⟩
      rw [show i = k + 1 by omega]
      exact hk
    · obtain ⟨j, hj, hst, hrun⟩ := ih hprev
      refine ⟨j, by omega, hst, fun i hlo hhi => ?_⟩
      by_cases hi : i ≤ k
      · exact hrun i hlo hi
      · rw [show i = k + 1 by omega]
        exact hk

/-- A word that meets a zero in front of the limit ends there. -/
theorem takeWhile_slice_add {len m : ℕ} (h : ∃ j, j < len ∧ b.byte (k + j) = 0) :
    (b.slice k (len + m)).takeWhile (· ≠ 0) = (b.slice k len).takeWhile (· ≠ 0) := by
  obtain ⟨j, hj, hzero⟩ := h
  have hmem : (0 : UInt8) ∈ b.slice k len := mem_slice.2 ⟨j, hj, hzero⟩
  rw [slice_add, List.takeWhile_append, if_neg]
  intro hlen
  -- a word as long as the slice would hold no zero
  have hall := List.takeWhile_eq_self_iff.1 (List.takeWhile_prefix _ |>.eq_of_length hlen) 0 hmem
  simp at hall

/-- **The string at a cell is the word up to the limit** where a zero
stands between the cell and the limit, the limit included. -/
theorem cstr_eq_wordAt_iff (hk : k ≤ limit) (hlimit : limit < n) :
    b.cstr k = b.wordAt limit k ↔ ∃ j, k ≤ j ∧ j ≤ limit ∧ b.byte j = 0 := by
  have hsplit : n - k = limit - k + (1 + (n - limit - 1)) := by omega
  unfold cstr wordAt
  rw [hsplit]
  constructor
  · intro heq
    by_contra hno
    have hne : ∀ j, k ≤ j → j ≤ limit → b.byte j ≠ 0 := fun j h1 h2 h3 => hno ⟨j, h1, h2, h3⟩
    -- without a zero the string takes in the cell at the limit, and the word does not
    have hall : ∀ c ∈ b.slice k (limit - k + 1), decide (c ≠ 0) = true := by
      intro c hc
      obtain ⟨j, hj, rfl⟩ := mem_slice.1 hc
      simpa using hne (k + j) (by omega) (by omega)
    rw [← Nat.add_assoc, slice_add, List.takeWhile_append_of_pos hall] at heq
    have hlen := congrArg List.length heq
    have hle := (List.takeWhile_prefix (l := b.slice k (limit - k)) (fun c => decide (c ≠ 0))).length_le
    rw [List.length_append, length_slice] at hlen
    rw [length_slice] at hle
    omega
  · rintro ⟨j, hkj, hj, hzero⟩
    by_cases hlt : j < limit
    · exact takeWhile_slice_add ⟨j - k, by omega, by rw [Nat.add_sub_cancel' hkj, hzero]⟩
    · -- the zero is the one at the limit
      have hj : j = limit := by omega
      subst hj
      rw [slice_add, slice_add, slice_succ, slice_zero, Nat.add_zero,
        show k + (j - k) = j by omega, hzero, List.nil_append, List.takeWhile_append]
      split
      · rename_i hlen
        rw [List.takeWhile_prefix _ |>.eq_of_length hlen]
        simp
      · rfl

/-- **A string ends at or in front of the limit** where a zero stands
there. -/
theorem length_cstr_le_iff (hk : k ≤ limit) (hlimit : limit < n) :
    k + (b.cstr k).length ≤ limit ↔ ∃ j, k ≤ j ∧ j ≤ limit ∧ b.byte j = 0 := by
  constructor
  · intro hlen
    by_contra hno
    have hall : ∀ c ∈ b.slice k (limit - k + 1), decide (c ≠ 0) = true := by
      intro c hc
      obtain ⟨j, hj, rfl⟩ := mem_slice.1 hc
      simpa using fun hzero => hno ⟨k + j, by omega, by omega, hzero⟩
    rw [cstr, show n - k = limit - k + 1 + (n - limit - 1) by omega, slice_add,
      List.takeWhile_append_of_pos hall, List.length_append, length_slice] at hlen
    omega
  · intro h
    rw [(cstr_eq_wordAt_iff hk hlimit).2 h]
    have hle := (List.takeWhile_prefix (l := b.slice k (limit - k)) (fun c => decide (c ≠ 0))).length_le
    rw [length_slice] at hle
    rw [wordAt]
    omega

/-- **The strings at the starts are the words** exactly when the range
is empty, or ends in a zero, or has a zero behind it. -/
theorem cstr_starts_iff (hlimit : limit < n) :
    (b.starts limit).map b.cstr = b.words limit ↔
      limit = 0 ∨ b.byte (limit - 1) = 0 ∨ b.byte limit = 0 := by
  unfold words
  rw [List.map_inj_left]
  constructor
  · intro h
    by_cases hzero : limit = 0
    · exact Or.inl hzero
    by_cases hlast : b.byte (limit - 1) = 0
    · exact Or.inr (Or.inl hlast)
    -- the last word runs up to the limit, so its string ends there only by the zero behind
    obtain ⟨j, hj, hst, hrun⟩ := exists_start hlast
    obtain ⟨i, hij, hi, hizero⟩ := (cstr_eq_wordAt_iff (by omega) hlimit).1
      (h j (mem_startsIn.2 ⟨⟨Nat.zero_le j, by omega⟩, hst⟩))
    by_cases hlt : i ≤ limit - 1
    · exact absurd hizero (hrun i hij hlt)
    · rw [show i = limit by omega] at hizero
      exact Or.inr (Or.inr hizero)
  · rintro (rfl | hlast | hend) k hk
    · simp [starts, startsIn_self] at hk
    · obtain ⟨⟨-, hk⟩, -⟩ := mem_startsIn.1 hk
      exact (cstr_eq_wordAt_iff (by omega) hlimit).2 ⟨limit - 1, by omega, by omega, hlast⟩
    · obtain ⟨⟨-, hk⟩, -⟩ := mem_startsIn.1 hk
      exact (cstr_eq_wordAt_iff (by omega) hlimit).2 ⟨limit, by omega, by omega, hend⟩

end Block

end SlipBoard
