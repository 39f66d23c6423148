import SlipBoard.Common.Transition
import SlipBoard.Tasks.Model.Idle
import SlipBoard.Xprintf.Format
import Mathlib.Data.List.DropRight
/-!
# Tasks — the load is a percentage

A window is a stretch of calls of the idle hook that ends with the call
in which a second has gone by. That call divides by the longest window so
far, its own included, so that what it computes is at most 100, also
where `100 * count` wraps (`divide_le`). From one call (`Accounts.step`)
a run keeps what the variables are for: the last value, the least one and
the row of the last twenty (`cpuLoad_percentages`).
-/

namespace SlipBoard

namespace Tasks

open Transition Xprintf

variable {l : CpuLoad} {t : Ticks} {ts : List Ticks} {vs : List UInt32} {calls : ℕ}

/-- How many calls each window has, of those that have ended. `calls` are
in the open one so far. -/
def windows (lastTick : UInt32) (calls : ℕ) : List Ticks → List ℕ
  | [] => []
  | t :: ts =>
    if t.now - lastTick ≥ configTickRateHz then (calls + 1) :: windows t.stored 0 ts
    else windows lastTick (calls + 1) ts

/-- The values that `MPU_IDLE` is given in a run, one for each window that
ends. -/
def computed (l : CpuLoad) : List Ticks → List UInt32
  | [] => []
  | t :: ts =>
    match vApplicationIdleHook l t with
    | none => []
    | some l' => if l.closes t then l'.mpuIdle :: computed l' ts else computed l' ts

/-! ## One window -/

/-- **The quotient**, although the product may wrap: a remainder divided by
as much or more is no percentage above 100 either. -/
theorem divide_le {count maxCount : UInt32} (hpos : 0 < count) (hle : count ≤ maxCount) :
    ∃ v, divide (100 * count) maxCount = some v ∧ v ≤ 100 := by
  have hcount : 0 < count.toNat := hpos
  have hmax : count.toNat ≤ maxCount.toNat := hle
  have hne : maxCount ≠ 0 := by
    rintro rfl
    exact absurd hmax (Nat.not_le.2 hcount)
  refine ⟨100 * count / maxCount, if_neg hne, ?_⟩
  rw [UInt32.le_iff_toNat_le, UInt32.toNat_div, UInt32.toNat_mul]
  calc 100 * count.toNat % 2 ^ 32 / maxCount.toNat
      ≤ 100 * maxCount.toNat / maxCount.toNat :=
        Nat.div_le_div_right ((Nat.mod_le _ _).trans (Nat.mul_le_mul_left _ hmax))
    _ = 100 := Nat.mul_div_cancel _ (hcount.trans_le hmax)

theorem if_lt_eq_min (a b : UInt32) : (if a < b then a else b) = min b a := by
  show _ = if b ≤ a then b else a
  by_cases h : a < b
  · rw [if_pos h, if_neg (UInt32.not_le.2 h)]
  · rw [if_neg h, if_pos (UInt32.not_lt.1 h)]

/-- The loop moves the row one place to the front. -/
theorem shiftLoop_eq {left i : ℕ} : ∀ (mas : List UInt32), 0 < i → i + left = mas.length →
    shiftLoop left i mas = mas.take (i - 1) ++ mas.drop i ++ mas.drop (mas.length - 1) := by
  induction left generalizing i with
  | zero =>
    intro mas hi hlen
    obtain rfl : i = mas.length := hlen
    rw [shiftLoop, List.drop_length, List.append_nil, List.take_append_drop]
  | succ left ih =>
    intro mas hi hlen
    have hlt : i < mas.length := by omega
    have hat : (mas.set (i - 1) (mas.getD i 0)).take i = mas.take (i - 1) ++ [mas[i]] := by
      obtain ⟨k, rfl⟩ : ∃ k, i = k + 1 := ⟨i - 1, by omega⟩
      rw [Nat.add_sub_cancel, List.take_add_one, List.take_set_of_le le_rfl,
        List.getElem?_set_self (by omega), List.getD_eq_getElem _ _ hlt]
      rfl
    have hnext := ih (mas.set (i - 1) (mas.getD i 0)) (show 0 < i + 1 from Nat.succ_pos i)
      (by rw [List.length_set]; omega)
    rw [Nat.add_sub_cancel] at hnext
    rw [shiftLoop, hnext, hat, List.length_set, List.drop_set_of_lt (by omega),
      List.drop_set_of_lt (by omega),
      List.append_assoc (mas.take (i - 1)), List.singleton_append, ← List.drop_eq_getElem_cons hlt]

/-- The row behind a window: the oldest value has gone, and the new one is
at the end. -/
theorem shiftLoop_set {mas : List UInt32} (h : mas.length = sizeCpuFree) (v : UInt32) :
    (shiftLoop (sizeCpuFree - 1) 1 mas).set (sizeCpuFree - 1) v = mas.drop 1 ++ [v] := by
  have hlast : (mas.drop (sizeCpuFree - 1)).length = 1 := by rw [List.length_drop, h]; rfl
  obtain ⟨w, hw⟩ := List.length_eq_one_iff.1 hlast
  have hfront : (mas.drop 1).length = sizeCpuFree - 1 := by rw [List.length_drop, h]
  have hrounds : 1 + (sizeCpuFree - 1) = mas.length := h.symm
  rw [shiftLoop_eq mas Nat.one_pos hrounds, Nat.sub_self, List.take_zero, List.nil_append, h, hw,
    List.set_append_right _ _ hfront.le, hfront, Nat.sub_self]
  rfl

/-- The last values, as many as the row has, with zeros in front of the
first. -/
def lastValues (vs : List UInt32) : List UInt32 :=
  (List.replicate sizeCpuFree 0 ++ vs).rtake sizeCpuFree

theorem length_lastValues (vs : List UInt32) : (lastValues vs).length = sizeCpuFree := by
  rw [lastValues, List.rtake, List.length_drop, List.length_append, List.length_replicate]
  omega

theorem lastValues_concat (vs : List UInt32) (v : UInt32) :
    lastValues (vs ++ [v]) = (lastValues vs).drop 1 ++ [v] := by
  have hlen : (List.replicate sizeCpuFree (0 : UInt32) ++ vs).length = sizeCpuFree + vs.length := by
    rw [List.length_append, List.length_replicate]
  have hdrop : sizeCpuFree + vs.length - 19 = sizeCpuFree + vs.length - sizeCpuFree + 1 := by
    show 20 + vs.length - 19 = 20 + vs.length - 20 + 1
    omega
  rw [lastValues, ← List.append_assoc, show sizeCpuFree = 19 + 1 from rfl, List.rtake_concat_succ,
    lastValues, List.rtake, List.rtake, List.drop_drop, hlen, hdrop]

theorem mem_lastValues {v : UInt32} (h : v ∈ lastValues vs) : v = 0 ∨ v ∈ vs := by
  rcases List.mem_append.1 (List.mem_of_mem_drop h) with hzero | hmem
  · exact .inl (List.eq_of_mem_replicate hzero)
  · exact .inr hmem

/-! ## Runs -/

/-- `max_count` behind a window that ends, whose last call counts too. -/
def CpuLoad.longest (l : CpuLoad) : UInt32 :=
  if l.count + 1 > l.maxCount then l.count + 1 else l.maxCount

/-- What the call that ends a window leaves: the new value, the least of
them and the row of the last ones, and the counting begun again. -/
def CpuLoad.after (l : CpuLoad) (t : Ticks) (v : UInt32) : CpuLoad where
  mpuIdle := v
  minMpuFree := if v < l.minMpuFree then v else l.minMpuFree
  masCpuFree := (shiftLoop (sizeCpuFree - 1) 1 l.masCpuFree).set (sizeCpuFree - 1) v
  lastTick := t.stored
  count := 0
  maxCount := l.longest

theorem idleHook_of_closes (h : l.closes t = true) : vApplicationIdleHook l t =
    (divide (100 * (l.count + 1)) l.longest).map (l.after t) := by
  unfold vApplicationIdleHook
  rw [if_pos h]
  show (divide (100 * (l.count + 1)) l.longest).bind _ = _
  cases divide (100 * (l.count + 1)) l.longest with
  | none => rfl
  | some v => rfl

theorem idleHook_of_not_closes (h : l.closes t = false) :
    vApplicationIdleHook l t = some { l with count := l.count + 1 } := by
  unfold vApplicationIdleHook
  rw [if_neg (Bool.eq_false_iff.1 h)]
  rfl

theorem computed_of_closes {v : UInt32} (h : l.closes t = true)
    (hdiv : divide (100 * (l.count + 1)) l.longest = some v) (ts : List Ticks) :
    computed l (t :: ts) = v :: computed (l.after t v) ts := by
  rw [computed, idleHook_of_closes h, hdiv]
  exact if_pos h

theorem computed_of_not_closes (h : l.closes t = false) (ts : List Ticks) :
    computed l (t :: ts) = computed { l with count := l.count + 1 } ts := by
  rw [computed, idleHook_of_not_closes h]
  exact if_neg (Bool.eq_false_iff.1 h)

/-- **What the variables hold** where `vs` has been computed and the open
window has had `calls` calls. -/
structure Accounts (l : CpuLoad) (vs : List UInt32) (calls : ℕ) : Prop where
  count_eq : l.count.toNat = calls % 2 ^ 32
  idle_eq : l.mpuIdle = vs.getLastD 100
  min_eq : l.minMpuFree = vs.foldl min 100
  row_eq : l.masCpuFree = lastValues vs
  le_hundred : ∀ v ∈ vs, v ≤ 100

theorem accounts_init : Accounts .init [] 0 :=
  ⟨rfl, rfl, rfl, rfl, fun _ hv => absurd hv List.not_mem_nil⟩

theorem toNat_count (h : Accounts l vs calls) : (l.count + 1).toNat = (calls + 1) % 2 ^ 32 := by
  rw [UInt32.toNat_add, h.count_eq, Nat.mod_add_mod]
  rfl

/-- A call inside a window counts, and changes nothing else. -/
theorem Accounts.count (h : Accounts l vs calls) :
    Accounts { l with count := l.count + 1 } vs (calls + 1) :=
  ⟨toNat_count h, h.idle_eq, h.min_eq, h.row_eq, h.le_hundred⟩

/-- **The call that ends a window** computes the next percentage, and starts
to count again. -/
theorem Accounts.close (h : Accounts l vs calls) (hshort : calls + 1 < 2 ^ 32) (t : Ticks) :
    ∃ v, divide (100 * (l.count + 1)) l.longest = some v ∧
      Accounts (l.after t v) (vs ++ [v]) 0 := by
  have hcount : 0 < l.count + 1 := by
    rw [UInt32.lt_iff_toNat_lt, toNat_count h, Nat.mod_eq_of_lt hshort]
    exact Nat.succ_pos calls
  have hmax : l.count + 1 ≤ l.longest := by
    unfold CpuLoad.longest
    split
    · exact UInt32.le_refl _
    · rename_i hle
      exact UInt32.not_lt.1 hle
  obtain ⟨v, hdiv, hv⟩ := divide_le hcount hmax
  refine ⟨v, hdiv, ?_⟩
  constructor
  · rfl
  · exact List.getLastD_concat.symm
  · rw [List.foldl_append, ← h.min_eq]
    exact if_lt_eq_min v l.minMpuFree
  · rw [CpuLoad.after, h.row_eq, shiftLoop_set (length_lastValues vs), lastValues_concat]
  · intro w hw
    rcases List.mem_append.1 hw with hw | hw
    · exact h.le_hundred w hw
    · exact List.mem_singleton.1 hw ▸ hv

/-- **A run** of calls never divides by zero, and keeps the percentages of
its windows. -/
theorem Accounts.run : ∀ {ts : List Ticks} {l : CpuLoad} {vs : List UInt32} {calls : ℕ},
    Accounts l vs calls → (∀ w ∈ windows l.lastTick calls ts, w < 2 ^ 32) →
    ∃ l' calls', Transition.run vApplicationIdleHook l ts = some l' ∧
      Accounts l' (vs ++ computed l ts) calls' := by
  intro ts
  induction ts with
  | nil =>
    intro l vs calls h _
    refine ⟨l, calls, rfl, ?_⟩
    rwa [computed, List.append_nil]
  | cons t ts ih =>
    intro l vs calls h hshort
    rw [windows] at hshort
    cases hends : l.closes t with
    | false =>
      have hopen : ¬ t.now - l.lastTick ≥ configTickRateHz := of_decide_eq_false hends
      rw [if_neg hopen] at hshort
      obtain ⟨l', calls', hrun, h'⟩ := ih h.count hshort
      refine ⟨l', calls', run_cons.2 ⟨_, idleHook_of_not_closes hends, hrun⟩, ?_⟩
      rwa [computed_of_not_closes hends]
    | true =>
      have hclose : t.now - l.lastTick ≥ configTickRateHz := of_decide_eq_true hends
      rw [if_pos hclose, List.forall_mem_cons] at hshort
      obtain ⟨v, hdiv, h₁⟩ := h.close hshort.1 t
      have hstep : vApplicationIdleHook l t = some (l.after t v) := by
        rw [idleHook_of_closes hends, hdiv]
        rfl
      obtain ⟨l', calls', hrun, h'⟩ := ih h₁ hshort.2
      refine ⟨l', calls', run_cons.2 ⟨_, hstep, hrun⟩, ?_⟩
      rw [List.append_assoc] at h'
      rwa [computed_of_closes hends hdiv]

/-! ## Printing -/

/-- A line as it is printed: its front, the colour, the number with a
percent sign, and the colour reset. -/
def lineText (front : String) (color : List UInt8) (v : ℕ) : List UInt8 :=
  ascii front ++ color ++ decimal v ++ [37] ++ colorBegin "0" ++ [13, 10, 13]

theorem xvprintf_line {front : String} (hfront : 37 ∉ ascii front) (color : List UInt8) {v : UInt32}
    (hv : v < 0x80000000) :
    xvprintf ((lineFormat front).length + 1) (lineFormat front) [.str color, .int v] =
      some (ascii front ++ color ++ decimal v.toNat ++ [37] ++ colorBegin "0" ++ [10, 13]) := by
  have hrest : xvprintf 13 (ascii "%s%d%%" ++ colorBegin "0" ++ ascii "\n\r") [.str color, .int v] =
      some (color ++ (decimal v.toNat ++ ([37] ++ (colorBegin "0" ++ [10, 13])))) := by
    simp [xvprintf, ascii, colorBegin, field, width, kind, Field.fill, numeral_eq _ _ hv]
  have hlen : (lineFormat front).length + 1 = 13 + (ascii front).length := by
    have hbehind : (ascii "%s%d%%").length = 6 ∧ (colorBegin "0").length = 4 ∧
        (ascii "\n\r").length = 2 := ⟨rfl, rfl, rfl⟩
    rw [lineFormat, List.length_append, List.length_append, List.length_append]
    omega
  rw [hlen, lineFormat, List.append_assoc, List.append_assoc, ← List.append_assoc (ascii "%s%d%%"),
    xvprintf_plain hfront, hrest]
  simp only [Option.map_some, List.append_assoc]

/-- A colour is five characters, none of them a line feed. -/
theorem color_spec (v : UInt32) : (color v).length = 5 ∧ 10 ∉ color v ∧ 0 ∉ color v := by
  have hcolors : ∀ c ∈ ["32", "36", "33", "31"].map colorBegin,
      c.length = 5 ∧ 10 ∉ c ∧ 0 ∉ c := by decide
  have heq : color v = if v < 25 then colorBegin "31" else if v < 50 then colorBegin "33" else
      if v ≤ 90 then colorBegin "36" else colorBegin "32" := rfl
  rw [heq]
  split
  · exact hcolors (colorBegin "31") (by decide)
  split
  · exact hcolors (colorBegin "33") (by decide)
  split
  · exact hcolors (colorBegin "36") (by decide)
  · exact hcolors (colorBegin "32") (by decide)

/-- **A line fits `mas`**, with its colour and a percentage of three digits
at most. -/
theorem printLine_eq (mas : Block 128) (front : String) (hplain : 37 ∉ ascii front)
    (hlf : 10 ∉ ascii front) (hnul : 0 ∉ ascii front) (hlen : (ascii front).length ≤ 100)
    (w : UInt32) {v : UInt32} (hv : v ≤ 100) :
    ∃ mas', printLine mas front (color w) v = some (mas', lineText front (color w) v.toNat) := by
  obtain ⟨hcolor, hcolorlf, hcolornul⟩ := color_spec w
  have hsmall : v < 0x80000000 := UInt32.lt_of_le_of_lt hv (by decide)
  have hdigits : (decimal v.toNat).length ≤ 3 := by
    have hle : v.toNat ≤ 100 := hv
    exact length_decimal_le (by decide) (by omega)
  have hcrlf : crlf (ascii front ++ color w ++ decimal v.toNat ++ [37] ++ colorBegin "0" ++ [10, 13]) =
      lineText front (color w) v.toNat := by
    rw [crlf_append, crlf_eq_self]
    · rfl
    · simp only [List.mem_append, not_or]
      exact ⟨⟨⟨⟨hlf, hcolorlf⟩, lf_notMem_decimal _⟩, by decide⟩, by decide⟩
  obtain ⟨mas', hrun, hstr⟩ := xsprintf_line mas (xvprintf_line hplain (color w) hsmall) (by
    simp only [List.mem_append, not_or]
    exact ⟨⟨⟨⟨⟨hnul, hcolornul⟩, nul_notMem_decimal _⟩, by decide⟩, by decide⟩, by decide⟩) (by
    have hend : (colorBegin "0").length = 4 := rfl
    rw [hcrlf]
    simp only [lineText, List.length_append, List.length_cons, List.length_nil, hcolor, hend]
    omega)
  refine ⟨mas', ?_⟩
  rw [printLine, hrun, Option.bind_eq_bind, Option.bind_some, hstr, hcrlf]
  rfl

/-- **What is printed** of percentages: each line with its own, and for the
use what it leaves of 100. -/
theorem printCpuFree_eq (hidle : l.mpuIdle ≤ 100) (hmin : l.minMpuFree ≤ 100) :
    printCpuFree l = some [
      lineText "MPU IDLE(FREE):" (color l.mpuIdle) l.mpuIdle.toNat,
      lineText "MPU USE:" (color l.mpuIdle) (100 - l.mpuIdle.toNat), ascii "\n\r",
      lineText "MPU Minimum IDLE(FREE):" (color l.minMpuFree) l.minMpuFree.toNat,
      lineText "MPU Maximum USE:" (color l.minMpuFree) (100 - l.minMpuFree.toNat)] := by
  have hsub : ∀ {v : UInt32}, v ≤ 100 → (100 - v).toNat = 100 - v.toNat ∧ 100 - v ≤ 100 := by
    intro v hv
    have hnat := UInt32.toNat_sub_of_le 100 v hv
    refine ⟨hnat, ?_⟩
    rw [UInt32.le_iff_toNat_le, hnat]
    exact Nat.sub_le _ _
  obtain ⟨huse, huse_le⟩ := hsub hidle
  obtain ⟨hmax, hmax_le⟩ := hsub hmin
  obtain ⟨m₁, h₁⟩ := printLine_eq ⟨fun _ => 0⟩ "MPU IDLE(FREE):" (by decide) (by decide)
    (by decide) (by decide) l.mpuIdle hidle
  obtain ⟨m₂, h₂⟩ := printLine_eq m₁ "MPU USE:" (by decide) (by decide) (by decide)
    (by decide) l.mpuIdle huse_le
  obtain ⟨m₃, h₃⟩ := printLine_eq m₂ "MPU Minimum IDLE(FREE):" (by decide) (by decide)
    (by decide) (by decide) l.minMpuFree hmin
  obtain ⟨m₄, h₄⟩ := printLine_eq m₃ "MPU Maximum USE:" (by decide) (by decide)
    (by decide) (by decide) l.minMpuFree hmax_le
  simp only [printCpuFree, h₁, h₂, h₃, h₄, Option.bind_eq_bind, Option.bind_some, huse, hmax]
  rfl

/-! ## Whole runs -/

theorem foldl_min_le : ∀ (vs : List UInt32) (a : UInt32), vs.foldl min a ≤ a := by
  intro vs
  induction vs with
  | nil => exact fun a => UInt32.le_refl a
  | cons v vs ih =>
    intro a
    have hmin : min a v ≤ a := by
      rw [← if_lt_eq_min]
      split
      · rename_i hlt
        exact UInt32.le_of_lt hlt
      · exact UInt32.le_refl a
    exact UInt32.le_trans (ih (min a v)) hmin

theorem Accounts.idle_le (h : Accounts l vs calls) : l.mpuIdle ≤ 100 := by
  rw [h.idle_eq]
  cases vs using List.reverseRecOn with
  | nil => exact UInt32.le_refl 100
  | append_singleton vs v =>
    rw [List.getLastD_concat]
    exact h.le_hundred v List.mem_concat_self

theorem Accounts.min_le (h : Accounts l vs calls) : l.minMpuFree ≤ 100 := by
  rw [h.min_eq]
  exact foldl_min_le vs 100

theorem Accounts.row_le (h : Accounts l vs calls) : ∀ v ∈ l.masCpuFree, v ≤ 100 := by
  intro v hv
  rw [h.row_eq] at hv
  rcases mem_lastValues hv with rfl | hmem
  · decide
  · exact h.le_hundred v hmem

/-- **The load is a percentage**, in any run of calls with fewer than 2³²
of them in each window: no call divides by zero, the variables hold the
last value, the least one and the last twenty, none of them above 100, and
what is printed is what is left of 100. -/
theorem cpuLoad_percentages (ts : List Ticks) (hshort : ∀ w ∈ windows 0 0 ts, w < 2 ^ 32) :
    ∃ l, run vApplicationIdleHook .init ts = some l ∧
      l.mpuIdle = (computed .init ts).getLastD 100 ∧
      l.minMpuFree = (computed .init ts).foldl min 100 ∧
      l.masCpuFree = (List.replicate sizeCpuFree 0 ++ computed .init ts).rtake sizeCpuFree ∧
      l.mpuIdle ≤ 100 ∧ (∀ v ∈ l.masCpuFree, v ≤ 100) ∧
      (100 - l.mpuIdle).toNat = 100 - l.mpuIdle.toNat ∧
      (100 - l.minMpuFree).toNat = 100 - l.minMpuFree.toNat ∧
      printCpuFree l = some [
        lineText "MPU IDLE(FREE):" (color l.mpuIdle) l.mpuIdle.toNat,
        lineText "MPU USE:" (color l.mpuIdle) (100 - l.mpuIdle.toNat), ascii "\n\r",
        lineText "MPU Minimum IDLE(FREE):" (color l.minMpuFree) l.minMpuFree.toNat,
        lineText "MPU Maximum USE:" (color l.minMpuFree) (100 - l.minMpuFree.toNat)] := by
  obtain ⟨l, calls, hrun, h⟩ := accounts_init.run hshort
  rw [List.nil_append] at h
  exact ⟨l, hrun, h.idle_eq, h.min_eq, h.row_eq, h.idle_le, h.row_le,
    UInt32.toNat_sub_of_le _ _ h.idle_le, UInt32.toNat_sub_of_le _ _ h.min_le,
    printCpuFree_eq h.idle_le h.min_le⟩

/-- Two windows, of two calls and of one, in the second of which the tick
counter wraps. -/
theorem cpuLoad_percentages_wrap : ∃ l,
    run vApplicationIdleHook .init [⟨0, 0⟩, ⟨0xFFFFFF00, 0xFFFFFF00⟩, ⟨0x300, 0x300⟩] = some l ∧
      l.mpuIdle = 50 ∧ l.minMpuFree = 50 ∧
      l.masCpuFree = List.replicate 18 0 ++ [100, 50] := by
  obtain ⟨l, hrun, hidle, hmin, hrow, -⟩ :=
    cpuLoad_percentages [⟨0, 0⟩, ⟨0xFFFFFF00, 0xFFFFFF00⟩, ⟨0x300, 0x300⟩] (by decide)
  exact ⟨l, hrun, hidle, hmin, hrow⟩

end Tasks

end SlipBoard
