import Mathlib.Data.List.Infix
/-!
# What lists have in common

The longest common prefix of a family of lists, computed two at a time.
It is the greatest lower bound in the order of prefixes
(`prefix_sharedPrefix_iff`), and that is all that is used of it.
-/

namespace SlipBoard

variable {α : Type*} [DecidableEq α]

/-- The longest common prefix of two lists, element by element as long as
they agree. -/
def commonPrefix : List α → List α → List α
  | a :: as, b :: bs => if a = b then a :: commonPrefix as bs else []
  | _, _ => []

/-- The longest common prefix of a family, folded from its first list. An
empty family has the empty list. -/
def sharedPrefix : List (List α) → List α
  | [] => []
  | w :: ws => ws.foldl commonPrefix w

variable {p as bs w : List α} {ws : List (List α)}

theorem prefix_commonPrefix_iff : p <+: commonPrefix as bs ↔ p <+: as ∧ p <+: bs := by
  induction as generalizing p bs with
  | nil =>
    simp only [commonPrefix, List.prefix_nil]
    exact ⟨fun h => ⟨h, h ▸ List.nil_prefix⟩, fun h => h.1⟩
  | cons a as ih =>
    cases bs with
    | nil =>
      simp only [commonPrefix, List.prefix_nil]
      exact ⟨fun h => ⟨h ▸ List.nil_prefix, h⟩, fun h => h.2⟩
    | cons b bs =>
      rw [commonPrefix]
      cases p with
      | nil => simp
      | cons c p =>
        by_cases hab : a = b
        · subst hab
          rw [if_pos rfl]
          simp only [List.cons_prefix_cons, ih]
          exact ⟨fun h => ⟨⟨h.1, h.2.1⟩, h.1, h.2.2⟩, fun h => ⟨h.1.1, h.1.2, h.2.2⟩⟩
        · rw [if_neg hab]
          simp only [List.cons_prefix_cons, List.prefix_nil, List.cons_ne_nil, false_iff]
          rintro ⟨⟨rfl, -⟩, rfl, -⟩
          exact hab rfl

/-- **The longest common prefix**: what is in front of it is what is in
front of every list. -/
theorem prefix_sharedPrefix_iff (hne : ws ≠ []) :
    p <+: sharedPrefix ws ↔ ∀ w ∈ ws, p <+: w := by
  have hfold : ∀ (ws : List (List α)) (w : List α),
      p <+: ws.foldl commonPrefix w ↔ p <+: w ∧ ∀ v ∈ ws, p <+: v := by
    intro ws
    induction ws with
    | nil => simp
    | cons v ws ih =>
      intro w
      rw [List.foldl_cons, ih, prefix_commonPrefix_iff, List.forall_mem_cons, and_assoc]
  cases ws with
  | nil => exact absurd rfl hne
  | cons w ws => rw [sharedPrefix, hfold, List.forall_mem_cons]

theorem sharedPrefix_le (hw : w ∈ ws) : sharedPrefix ws <+: w :=
  (prefix_sharedPrefix_iff (List.ne_nil_of_mem hw)).1 List.prefix_rfl w hw

/-- A family of one list, however often it is there, has all of it in
common. -/
theorem sharedPrefix_eq_of_forall (hne : ws ≠ []) (h : ∀ v ∈ ws, v = w) : sharedPrefix ws = w := by
  obtain ⟨v, hv⟩ := List.exists_mem_of_ne_nil ws hne
  have hle : sharedPrefix ws <+: w := h v hv ▸ sharedPrefix_le hv
  have hge : w <+: sharedPrefix ws :=
    (prefix_sharedPrefix_iff hne).2 fun u hu => h u hu ▸ List.prefix_rfl
  exact hle.eq_of_length_le hge.length_le

/-- Families of the same lists share one prefix, whatever their order and
however often a list is there. -/
theorem sharedPrefix_congr {vs : List (List α)} (h : ∀ w, w ∈ ws ↔ w ∈ vs) :
    sharedPrefix ws = sharedPrefix vs := by
  by_cases hne : ws = []
  · subst hne
    rw [List.eq_nil_iff_forall_not_mem.2 fun w hw => List.not_mem_nil ((h w).2 hw)]
  · obtain ⟨w, hw⟩ := List.exists_mem_of_ne_nil ws hne
    have hvs : vs ≠ [] := List.ne_nil_of_mem ((h w).1 hw)
    have hle : sharedPrefix ws <+: sharedPrefix vs :=
      (prefix_sharedPrefix_iff hvs).2 fun v hv => sharedPrefix_le ((h v).2 hv)
    have hge : sharedPrefix vs <+: sharedPrefix ws :=
      (prefix_sharedPrefix_iff hne).2 fun v hv => sharedPrefix_le ((h v).1 hv)
    exact hle.eq_of_length_le hge.length_le

omit [DecidableEq α] in
/-- The element behind a prefix, where the list goes on with it. -/
theorem getElem?_of_concat_prefix {a : α} (h : p ++ [a] <+: w) : w[p.length]? = some a := by
  obtain ⟨v, rfl⟩ := h
  simp

omit [DecidableEq α] in
theorem concat_prefix_of_getElem? {a : α} (h : p <+: w) (ha : w[p.length]? = some a) :
    p ++ [a] <+: w := by
  obtain ⟨v, rfl⟩ := h
  rw [List.getElem?_append_right (le_refl _), Nat.sub_self] at ha
  cases v with
  | nil => cases ha
  | cons b v =>
    cases ha
    exact ⟨v, by rw [List.append_assoc, List.singleton_append]⟩

/-- **Up to the longest common prefix** the lists go on alike, -/
theorem exists_next_of_ne (h : p <+: sharedPrefix ws) (hne : p ≠ sharedPrefix ws) :
    ∃ a, p ++ [a] <+: sharedPrefix ws ∧ ∀ w ∈ ws, w[p.length]? = some a := by
  obtain ⟨v, hv⟩ := h
  cases v with
  | nil => exact absurd (hv.symm.trans (List.append_nil p)).symm hne
  | cons a v =>
    have hnext : p ++ [a] <+: sharedPrefix ws :=
      ⟨v, by rw [← hv, List.append_assoc, List.singleton_append]⟩
    exact ⟨a, hnext, fun w hw => getElem?_of_concat_prefix (hnext.trans (sharedPrefix_le hw))⟩

/-- and behind it they part, where they are not all one list. -/
theorem exists_part {v : List α} (hw : w ∈ ws) (hv : v ∈ ws) (hne : w ≠ v) :
    ∃ u ∈ ws, u[(sharedPrefix ws).length]? ≠ w[(sharedPrefix ws).length]? := by
  by_contra hall
  push Not at hall
  cases hend : w[(sharedPrefix ws).length]? with
  | none =>
    -- every list ends there, and so is the common prefix itself
    have hsame : ∀ u ∈ ws, u = sharedPrefix ws := by
      intro u hu
      have hlength := List.getElem?_eq_none_iff.1 ((hall u hu).trans hend)
      exact ((sharedPrefix_le hu).eq_of_length_le hlength).symm
    exact hne ((hsame w hw).trans (hsame v hv).symm)
  | some a =>
    have hlonger : sharedPrefix ws ++ [a] <+: sharedPrefix ws :=
      (prefix_sharedPrefix_iff (List.ne_nil_of_mem hw)).2 fun u hu =>
        concat_prefix_of_getElem? (sharedPrefix_le hu) ((hall u hu).trans hend)
    have hlength := hlonger.length_le
    rw [List.length_append, List.length_singleton] at hlength
    omega

end SlipBoard
