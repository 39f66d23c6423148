import Mathlib.Data.List.Basic
import Mathlib.Data.Nat.ModEq
import Mathlib.Logic.Function.Basic
/-!
# Ring buffers

A ring of `N` cells holds its contents in the `n` cells from a read
index on, wrapping at `N`. `window` reads them off in order, and the
lemmas say what the two ends of a queue do to it: a store in the first
free cell appends (`window_push`), and moving the read index on drops
the head (`window_cons`). The index moves as C code moves it, by an
increment and a test against the size (`next`).
-/

namespace SlipBoard

namespace RingBuffer

variable {α : Type*} {buf : ℕ → α} {N rd n : ℕ} {x : α}

/-- The `n` cells of a ring of size `N` from index `rd` on. -/
def window (buf : ℕ → α) (N rd n : ℕ) : List α :=
  (List.range n).map fun k => buf ((rd + k) % N)

/-- An index that has been incremented, put back to `0` at the size. -/
def wrap (N i : ℕ) : ℕ := if i = N then 0 else i

/-- The index after `i`, incremented and put back to `0` at the size. -/
def next (N i : ℕ) : ℕ := wrap N (i + 1)

@[simp] theorem length_window : (window buf N rd n).length = n := by
  simp [window]

@[simp] theorem window_zero : window buf N rd 0 = [] := rfl

theorem wrap_eq_mod {i : ℕ} (h : i ≤ N) : wrap N i = i % N := by
  rcases Nat.lt_or_ge i N with hlt | hge
  · rw [wrap, if_neg (by omega), Nat.mod_eq_of_lt hlt]
  · rw [wrap, if_pos (by omega), show i = N by omega, Nat.mod_self]

theorem wrap_lt {i : ℕ} (hN : 0 < N) (h : i ≤ N) : wrap N i < N := by
  rw [wrap_eq_mod h]
  exact Nat.mod_lt _ hN

theorem next_eq_mod (h : rd < N) : next N rd = (rd + 1) % N :=
  wrap_eq_mod (by omega)

theorem next_lt (h : rd < N) : next N rd < N :=
  wrap_lt (by omega) (by omega)

/-- The writer stands behind the queue, and still does with one element
more. -/
theorem writer_push {wr : ℕ} (h : wr % N = (rd + n) % N) : (wr + 1) % N = (rd + (n + 1)) % N := by
  rw [Nat.add_mod, h, ← Nat.add_mod, Nat.add_assoc]

/-- And with the head of the queue taken off, as the reader's index moves
on. -/
theorem writer_pop {wr : ℕ} (hrd : rd < N) (h : wr % N = (rd + (n + 1)) % N) :
    wr % N = (next N rd + n) % N := by
  rw [h, next_eq_mod hrd, Nat.mod_add_mod]
  congr 1
  omega

/-- A window in two parts, the second of which begins where the first ends. -/
theorem window_add (m : ℕ) :
    window buf N rd (m + n) = window buf N rd m ++ window buf N (rd + m) n := by
  simp only [window, List.range_add, List.map_append, List.map_map]
  congr 1
  refine List.map_congr_left fun k _ => ?_
  simp only [Function.comp_apply, Nat.add_assoc]

/-- A window reads its start modulo the size, so an index need not have been
wrapped yet. -/
@[simp] theorem window_mod : window buf N (rd % N) n = window buf N rd n := by
  simp [window]

/-- The first cell of a window, and the window behind it, which is what a
reader leaves. -/
theorem window_cons (h : rd < N) :
    window buf N rd (n + 1) = buf rd :: window buf N (next N rd) n := by
  rw [Nat.add_comm, window_add, next_eq_mod h, window_mod]
  simp [window, Nat.mod_eq_of_lt h]

/-- The window in front, and its last cell, which is where a writer has
stored. -/
theorem window_succ :
    window buf N rd (n + 1) = window buf N rd n ++ [buf ((rd + n) % N)] := by
  rw [window_add]
  simp [window]

/-- Windows over cells that agree are equal, whatever the rings hold
elsewhere. -/
theorem window_congr {buf' : ℕ → α} (h : ∀ k, k < n → buf ((rd + k) % N) = buf' ((rd + k) % N)) :
    window buf N rd n = window buf' N rd n := by
  refine List.map_congr_left fun k hk => h k (List.mem_range.1 hk)

/-- A window is the list that its cells spell, one by one. -/
theorem window_eq_of_length {xs : List α} (hlen : xs.length = n)
    (h : ∀ k, (hk : k < xs.length) → buf ((rd + k) % N) = xs[k]) : window buf N rd n = xs := by
  refine List.ext_getElem (by simp [hlen]) fun k _ hk => ?_
  simpa [window] using h k hk

/-- Two offsets below the size name two cells, wherever the window begins. -/
theorem index_ne {j k : ℕ} (hj : j < N) (hk : k < N) (hne : j ≠ k) :
    (rd + j) % N ≠ (rd + k) % N := by
  intro h
  exact hne ((Nat.ModEq.add_left_cancel' rd h).eq_of_lt_of_lt hj hk)

/-- A store outside a window leaves it alone, as a writer does with what is
queued. -/
theorem window_update {k : ℕ} (hk : n ≤ k) (hN : k < N) :
    window (Function.update buf ((rd + k) % N) x) N rd n = window buf N rd n := by
  refine window_congr fun j hj => ?_
  rw [Function.update_of_ne (index_ne (by omega) hN (by omega))]

/-- **A store in the first free cell appends** to the window, as long as the
ring is not full. -/
theorem window_push (h : n < N) :
    window (Function.update buf ((rd + n) % N) x) N rd (n + 1) = window buf N rd n ++ [x] := by
  rw [window_succ, window_update le_rfl h, Function.update_self]

end RingBuffer

end SlipBoard
