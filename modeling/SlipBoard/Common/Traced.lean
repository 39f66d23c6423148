import Mathlib.Data.List.Basic
/-!
# Traced computations

A computation that may stop, with the list of the events on its way. An
event is logged whether or not the computation goes on behind it, so the
log of a computation that stops tells what stopped it. A statement about
every event (`Meets`) goes through a program by `meets_bind`: what comes
later is asked only of the answers that reach it.
-/

namespace SlipBoard

/-- The events of a computation, and its answer where it has one. -/
structure Traced (ε α : Type*) where
  log : List ε
  answer : Option α

namespace Traced

variable {ε α β : Type*} {x : Traced ε α} {f : α → Traced ε β} {P : ε → Prop}

/-- Two computations, the second where the first has an answer. -/
def bind (x : Traced ε α) (f : α → Traced ε β) : Traced ε β :=
  match x.answer with
  | none => ⟨x.log, none⟩
  | some a => ⟨x.log ++ (f a).log, (f a).answer⟩

instance : Monad (Traced ε) where
  pure a := ⟨[], some a⟩
  bind := bind

/-- A computation without an event. -/
def lift (answer : Option α) : Traced ε α := ⟨[], answer⟩

/-- An event. -/
def emit (e : ε) : Traced ε Unit := ⟨[e], some ()⟩

/-- Every event meets `P`. -/
def Meets (P : ε → Prop) (x : Traced ε α) : Prop := ∀ e ∈ x.log, P e

@[simp] theorem answer_pure (a : α) : (pure a : Traced ε α).answer = some a := rfl

@[simp] theorem meets_pure (a : α) : Meets P (pure a : Traced ε α) := fun _ he => by cases he

@[simp] theorem answer_lift (answer : Option α) : (lift answer : Traced ε α).answer = answer := rfl

@[simp] theorem meets_lift (answer : Option α) : Meets P (lift answer : Traced ε α) :=
  fun _ he => by cases he

@[simp] theorem answer_emit (e : ε) : (emit e : Traced ε Unit).answer = some () := rfl

@[simp] theorem meets_emit {e : ε} : Meets P (emit e : Traced ε Unit) ↔ P e := by
  simp [Meets, emit]

@[simp] theorem answer_bind {α β : Type _} {x : Traced ε α} {f : α → Traced ε β} :
    (x >>= f).answer = x.answer.bind fun a => (f a).answer := by
  show (bind x f).answer = _
  unfold bind
  cases x.answer <;> rfl

theorem lift_some_bind {α β : Type _} (a : α) (f : α → Traced ε β) :
    ((lift (some a) : Traced ε α) >>= f) = f a := rfl

theorem mk_singleton_bind {α β : Type _} (e : ε) (a : α) (f : α → Traced ε β) :
    ((⟨[e], some a⟩ : Traced ε α) >>= f) = emit e >>= fun _ => f a := rfl

/-- Behind a computation that has answered, -/
theorem mk_some_bind {α β : Type _} (log : List ε) (a : α) (f : α → Traced ε β) :
    ((⟨log, some a⟩ : Traced ε α) >>= f) = ⟨log ++ (f a).log, (f a).answer⟩ := rfl

/-- and behind one that has stopped. -/
theorem mk_none_bind {α β : Type _} (log : List ε) (f : α → Traced ε β) :
    ((⟨log, none⟩ : Traced ε α) >>= f) = ⟨log, none⟩ := rfl

/-- **The events of two computations** are those of the first, and behind
its answer those of the second. -/
theorem meets_bind {α β : Type _} {x : Traced ε α} {f : α → Traced ε β} :
    Meets P (x >>= f) ↔ Meets P x ∧ ∀ a, x.answer = some a → Meets P (f a) := by
  show Meets P (bind x f) ↔ _
  unfold bind Meets
  cases hx : x.answer with
  | none => simp
  | some a => simp [or_imp, forall_and]

/-- Where the first has answered, the events of both have to be admitted. -/
theorem meets_bind_of_answer {α β : Type _} {x : Traced ε α} {f : α → Traced ε β} {a : α}
    (hx : x.answer = some a) : Meets P (x >>= f) ↔ Meets P x ∧ Meets P (f a) := by
  rw [meets_bind, hx]
  simp

theorem log_bind_of_answer {α β : Type _} {x : Traced ε α} {f : α → Traced ε β} {a : α}
    (hx : x.answer = some a) : (x >>= f).log = x.log ++ (f a).log := by
  show (bind x f).log = _
  unfold bind
  rw [hx]

theorem answer_bind_of_answer {α β : Type _} {x : Traced ε α} {f : α → Traced ε β} {a : α}
    (hx : x.answer = some a) : (x >>= f).answer = (f a).answer := by
  rw [answer_bind, hx]
  rfl

/-- Every event meets `P`, and an answer meets `Q`. -/
def Spec (P : ε → Prop) (Q : α → Prop) (x : Traced ε α) : Prop :=
  Meets P x ∧ ∀ a, x.answer = some a → Q a

theorem spec_pure {Q : α → Prop} {a : α} (ha : Q a) : Spec P Q (pure a : Traced ε α) := by
  refine ⟨meets_pure a, ?_⟩
  rintro b hb
  exact Option.some.inj hb ▸ ha

theorem spec_lift {Q : α → Prop} {answer : Option α} (h : ∀ a, answer = some a → Q a) :
    Spec P Q (lift answer : Traced ε α) :=
  ⟨meets_lift answer, h⟩

/-- **Two computations**, by what the first answers: the second is only
asked about such answers. -/
theorem Spec.bind {α β : Type _} {x : Traced ε α} {f : α → Traced ε β} {R : α → Prop}
    {Q : β → Prop} (hx : Spec P R x)
    (hf : ∀ a, x.answer = some a → R a → Spec P Q (f a)) : Spec P Q (x >>= f) := by
  refine ⟨meets_bind.2 ⟨hx.1, fun a ha => (hf a ha (hx.2 a ha)).1⟩, fun b hb => ?_⟩
  rw [answer_bind] at hb
  obtain ⟨a, ha, hb⟩ := Option.bind_eq_some_iff.1 hb
  exact (hf a ha (hx.2 a ha)).2 b hb

/-- Behind an event, -/
theorem spec_emit_bind {β : Type _} {e : ε} {f : Unit → Traced ε β} {Q : β → Prop} (he : P e)
    (hf : Spec P Q (f ())) : Spec P Q (emit e >>= f) :=
  Spec.bind (R := fun _ => True) ⟨meets_emit.2 he, fun _ _ => trivial⟩ fun _ _ _ => hf

/-- and where there is a value. -/
theorem spec_lift_bind {α β : Type _} {answer : Option α} {f : α → Traced ε β} {Q : β → Prop}
    (hf : ∀ a, answer = some a → Spec P Q (f a)) : Spec P Q (lift answer >>= f) :=
  (spec_lift fun _ h => h).bind fun a _ h => hf a h

theorem Spec.mono {Q Q' : α → Prop} (h : Spec P Q x) (hQ : ∀ a, Q a → Q' a) : Spec P Q' x :=
  ⟨h.1, fun a ha => hQ a (h.2 a ha)⟩

/-- Every event meets `P` exactly where `good` holds, and where it does
there is an answer, with `Q`. -/
def Exact (P : ε → Prop) (good : Prop) (Q : α → Prop) (x : Traced ε α) : Prop :=
  (Meets P x ↔ good) ∧ (good → ∃ a, x.answer = some a ∧ Q a)

theorem exact_pure {good : Prop} {Q : α → Prop} {a : α} (hgood : good) (ha : Q a) :
    Exact P good Q (pure a : Traced ε α) :=
  ⟨iff_of_true (meets_pure a) hgood, fun _ => ⟨a, rfl, ha⟩⟩

/-- **Behind a computation without a bad event** it is the rest that counts,
with the answer it is given. -/
theorem exact_bind {α β : Type _} {x : Traced ε α} {f : α → Traced ε β} {good : Prop}
    {Q : β → Prop} {a : α} (ha : x.answer = some a) (hx : Meets P x)
    (h : Exact P good Q (f a)) : Exact P good Q (x >>= f) := by
  refine ⟨?_, fun hgood => ?_⟩
  · rw [meets_bind_of_answer ha, and_iff_right hx]
    exact h.1
  · rw [answer_bind_of_answer ha]
    exact h.2 hgood

/-- In front of a computation without a bad event it is the first that
counts. -/
theorem Exact.bind {α β : Type _} {x : Traced ε α} {f : α → Traced ε β} {good : Prop}
    {R : α → Prop} {Q : β → Prop} (hx : Exact P good R x)
    (hf : ∀ a, R a → Exact P True Q (f a)) : Exact P good Q (x >>= f) := by
  refine ⟨⟨fun h => hx.1.1 (meets_bind.1 h).1, fun hgood => ?_⟩, fun hgood => ?_⟩
  · obtain ⟨a, ha, hR⟩ := hx.2 hgood
    exact (meets_bind_of_answer ha).2 ⟨hx.1.2 hgood, (hf a hR).1.2 trivial⟩
  · obtain ⟨a, ha, hR⟩ := hx.2 hgood
    rw [answer_bind_of_answer ha]
    exact (hf a hR).2 trivial

theorem Exact.congr {good good' : Prop} {Q : α → Prop} (hx : Exact P good Q x) (h : good ↔ good') :
    Exact P good' Q x :=
  ⟨hx.1.trans h, fun hgood => hx.2 (h.2 hgood)⟩

/-- Behind a bad event nothing counts: the whole is bad, whatever comes. -/
theorem exact_bind_of_not_meets {α β : Type _} {x : Traced ε α} {f : α → Traced ε β}
    {good : Prop} {Q : β → Prop} (hx : ¬ Meets P x) (hgood : ¬ good) :
    Exact P good Q (x >>= f) :=
  ⟨iff_of_false (fun h => hx (meets_bind.1 h).1) hgood, fun h => absurd h hgood⟩

end Traced

end SlipBoard
