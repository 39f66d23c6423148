import Mathlib.Data.List.Basic
/-!
# Tasks that receive from a queue

A computation that takes one item after another from a queue, each time
waiting where the queue is empty. `run` plays it on what the queue holds:
it returns, with what is left over, or it waits for the next item. What
is sent later is received where it waits (`run_append_of_waiting`).
-/

namespace SlipBoard

/-- A computation that receives items of type `ι`, one after another: it is
done, or goes on with the next item that comes. -/
inductive Receiver (ι : Type) (α : Type)
  | done (a : α)
  | receive (next : ι → Receiver ι α)

/-- Where a computation stands when the queue has been played to it: it has
returned with items left over, or it waits. -/
inductive Received (ι : Type) (α : Type)
  | returned (a : α) (left : List ι)
  | waiting (next : ι → Receiver ι α)

namespace Receiver

variable {ι α β : Type}

/-- Two computations, one behind the other. The second goes on with the
items that the first has left. -/
def bind : Receiver ι α → (α → Receiver ι β) → Receiver ι β
  | .done a, f => f a
  | .receive next, f => .receive fun c => (next c).bind f

instance : Monad (Receiver ι) where
  pure := .done
  bind := bind

/-- A computation played on the items of a queue. On an empty queue one that
receives is waiting. -/
def run : Receiver ι α → List ι → Received ι α
  | .done a, q => .returned a q
  | .receive next, [] => .waiting next
  | .receive next, c :: q => (next c).run q

@[simp] theorem run_done (a : α) (q : List ι) : (done a).run q = .returned a q := by
  cases q <;> rfl

@[simp] theorem pure_eq (a : α) : (pure a : Receiver ι α) = .done a := rfl

/-- **What is run behind a computation that returns** goes on with the
answer, and with the items that are left. -/
theorem run_bind_of_returned {x : Receiver ι α} {f : α → Receiver ι β} {q left : List ι} {a : α}
    (h : x.run q = .returned a left) : (x >>= f).run q = (f a).run left := by
  induction x generalizing q with
  | done b =>
    rw [run_done] at h
    cases h
    rfl
  | receive next ih =>
    cases q with
    | nil => cases h
    | cons c q => exact ih c h

/-- Behind a computation that waits nothing is run: the whole waits for the
same item. -/
theorem run_bind_of_waiting {x : Receiver ι α} {f : α → Receiver ι β} {q : List ι}
    {next : ι → Receiver ι α} (h : x.run q = .waiting next) :
    (x >>= f).run q = .waiting fun c => next c >>= f := by
  induction x generalizing q with
  | done b =>
    rw [run_done] at h
    cases h
  | receive next' ih =>
    cases q with
    | nil =>
      cases h
      rfl
    | cons c q => exact ih c h

/-- **What is sent later** is received where it waits, as if it had been
there before. -/
theorem run_append_of_waiting {x : Receiver ι α} {q : List ι} {next : ι → Receiver ι α}
    (h : x.run q = .waiting next) (more : List ι) : x.run (q ++ more) = (receive next).run more := by
  induction x generalizing q with
  | done a =>
    rw [run_done] at h
    cases h
  | receive next' ih =>
    cases q with
    | nil =>
      cases h
      rfl
    | cons c q => exact ih c h

end Receiver

end SlipBoard
