import Mathlib.Data.List.Basic
/-!
# Runs of a transition system

A system is a step function: it answers the next state where an action
is enabled and nothing where it is not. `run` plays a list of actions,
and `Along` says that a predicate of the state before a step and the
action taken holds at every step played. What a run preserves is then
one induction, `always_of_invariant` or `run_of_invariant`, and a
developer states only what one step preserves.
-/

namespace SlipBoard

namespace Transition

variable {σ α : Type*} (step : σ → α → Option σ)

/-- The state a list of actions leads to, when every one of them is
enabled. -/
def run : σ → List α → Option σ
  | s, [] => some s
  | s, a :: as => (step s a).bind fun t => run t as

/-- Every step a list of actions takes meets `P`, which reads the state
before the step and the action. -/
def Along (P : σ → α → Prop) : σ → List α → Prop
  | _, [] => True
  | s, a :: as => P s a ∧ ∀ t, step s a = some t → Along P t as

/-- Every state a list of actions passes through meets `Q`, the first
and the last included. -/
def Always (Q : σ → Prop) : σ → List α → Prop
  | s, [] => Q s
  | s, a :: as => Q s ∧ ∀ t, step s a = some t → Always Q t as

variable {step} {P P' : σ → α → Prop} {I Q : σ → Prop}

@[simp] theorem run_nil (s : σ) : run step s [] = some s := rfl

theorem run_cons {s u : σ} {a : α} {as : List α} :
    run step s (a :: as) = some u ↔ ∃ t, step s a = some t ∧ run step t as = some u := by
  simp [run, Option.bind_eq_some_iff]

theorem run_append {s u : σ} {as bs : List α} :
    run step s (as ++ bs) = some u ↔ ∃ t, run step s as = some t ∧ run step t bs = some u := by
  induction as generalizing s with
  | nil => simp
  | cons a as ih =>
    simp only [List.cons_append, run_cons, ih]
    constructor
    · rintro ⟨t, ht, v, hv, hu⟩
      exact ⟨v, ⟨t, ht, hv⟩, hu⟩
    · rintro ⟨v, ⟨t, ht, hv⟩, hu⟩
      exact ⟨t, ht, v, hv, hu⟩

/-- **What every step commutes with, a run commutes with**, enabled or not. -/
theorem run_map {g : σ → σ} (hstep : ∀ s a, step (g s) a = (step s a).map g) (s : σ)
    (as : List α) : run step (g s) as = (run step s as).map g := by
  induction as generalizing s with
  | nil => rfl
  | cons a as ih =>
    rw [run, run, hstep, Option.bind_map, Option.map_bind]
    exact congrArg _ (funext ih)

/-- A run along which two predicates hold meets both at once. -/
theorem Along.and {as : List α} : ∀ {s : σ}, Along step P s as → Along step P' s as →
    Along step (fun s a => P s a ∧ P' s a) s as := by
  induction as with
  | nil => intro s _ _; trivial
  | cons a as ih =>
    rintro s ⟨hp, hps⟩ ⟨hq, hqs⟩
    exact ⟨⟨hp, hq⟩, fun t ht => ih (hps t ht) (hqs t ht)⟩

/-- A run in two parts keeps the condition where both do, the second from
where the first has led. -/
theorem along_append {as bs : List α} {s : σ} : Along step P s (as ++ bs) ↔
    Along step P s as ∧ ∀ t, run step s as = some t → Along step P t bs := by
  induction as generalizing s with
  | nil => simp [Along]
  | cons a as ih =>
    simp only [List.cons_append, Along, run_cons, ih, and_assoc, forall_and]
    refine and_congr_right fun _ => and_congr_right fun _ => ?_
    exact ⟨fun h u ⟨t, ht, hu⟩ => h t ht u hu, fun h t ht u hu => h u ⟨t, ht, hu⟩⟩

/-- A predicate of the actions alone is kept along a run where each of them
has it. -/
theorem along_of_forall {A : α → Prop} {as : List α} (h : ∀ a ∈ as, A a) :
    ∀ s : σ, Along step (fun _ a => A a) s as := by
  induction as with
  | nil => intro s; trivial
  | cons a as ih =>
    intro s
    exact ⟨h a (by simp), fun t _ => ih (fun b hb => h b (List.mem_cons_of_mem _ hb)) t⟩

/-- A predicate of every state holds before and after every step. -/
theorem Always.along_next {as : List α} : ∀ {s : σ}, Always step I s as →
    Along step (fun s a => I s ∧ ∀ t, step s a = some t → I t) s as := by
  induction as with
  | nil => intro s _; trivial
  | cons a as ih =>
    rintro s ⟨hs, hss⟩
    refine ⟨⟨hs, fun t ht => ?_⟩, fun t ht => ih (hss t ht)⟩
    cases as with
    | nil => exact hss t ht
    | cons b bs => exact (hss t ht).1

theorem Always.last {as : List α} : ∀ {s u : σ}, Always step I s as →
    run step s as = some u → I u := by
  induction as with
  | nil =>
    intro s u hs hrun
    simp only [run_nil, Option.some.injEq] at hrun
    exact hrun ▸ hs
  | cons a as ih =>
    rintro s u ⟨_, hss⟩ hrun
    obtain ⟨t, ht, hu⟩ := run_cons.1 hrun
    exact ih (hss t ht) hu

instance decidableAlong [∀ s a, Decidable (P s a)] :
    ∀ (s : σ) (as : List α), Decidable (Along step P s as)
  | _, [] => isTrue trivial
  | s, a :: as =>
    match h : step s a with
    | none => decidable_of_iff (P s a) (by simp [Along, h])
    | some t =>
      have := decidableAlong t as
      decidable_of_iff (P s a ∧ Along step P t as) (by simp [Along, h])

instance decidableAlways [DecidablePred Q] :
    ∀ (s : σ) (as : List α), Decidable (Always step Q s as)
  | s, [] => inferInstanceAs (Decidable (Q s))
  | s, a :: as =>
    match h : step s a with
    | none => decidable_of_iff (Q s) (by simp [Always, h])
    | some t =>
      have := decidableAlways t as
      decidable_of_iff (Q s ∧ Always step Q t as) (by simp [Always, h])

/-- **What one step preserves, a run preserves**: where every step meets
the side condition `P`, every state passed through meets what the
invariant gives. -/
theorem always_of_invariant (hstep : ∀ s a t, I s → P s a → step s a = some t → I t)
    (hI : ∀ s, I s → Q s) {as : List α} :
    ∀ {s : σ}, I s → Along step P s as → Always step Q s as := by
  induction as with
  | nil => intro s hs _; exact hI s hs
  | cons a as ih =>
    rintro s hs ⟨hp, hps⟩
    exact ⟨hI s hs, fun t ht => ih (hstep s a t hs hp ht) (hps t ht)⟩

/-- **Where every step is enabled and preserves the invariant, a run
goes through and ends in it.** -/
theorem run_of_invariant (hstep : ∀ s a, I s → P s a → ∃ t, step s a = some t ∧ I t)
    {as : List α} :
    ∀ {s : σ}, I s → Along step P s as → ∃ t, run step s as = some t ∧ I t := by
  induction as with
  | nil => intro s hs _; exact ⟨s, rfl, hs⟩
  | cons a as ih =>
    rintro s hs ⟨hp, hps⟩
    obtain ⟨t, ht, hI⟩ := hstep s a hs hp
    obtain ⟨u, hu, hIu⟩ := ih hI (hps t ht)
    exact ⟨u, run_cons.2 ⟨t, ht, hu⟩, hIu⟩

/-- **Two predicates an invariant makes equivalent hold along the same
runs**, from every state that has the invariant. -/
theorem along_congr (hstep : ∀ s a t, I s → step s a = some t → I t)
    (heq : ∀ s a, I s → (P s a ↔ P' s a)) {as : List α} :
    ∀ {s : σ}, I s → (Along step P s as ↔ Along step P' s as) := by
  induction as with
  | nil => intro s _; exact Iff.rfl
  | cons a as ih =>
    intro s hs
    constructor
    · rintro ⟨hp, hps⟩
      exact ⟨(heq s a hs).1 hp, fun t ht => (ih (hstep s a t hs ht)).1 (hps t ht)⟩
    · rintro ⟨hq, hqs⟩
      exact ⟨(heq s a hs).2 hq, fun t ht => (ih (hstep s a t hs ht)).2 (hqs t ht)⟩

end Transition

end SlipBoard
