import SlipBoard.Slip.Model.Sio
/-!
# SLIP — polling waits

`sio_tryread` is `sio_read`, which returns when it has all the bytes it
was asked for and waits before (`sioRead_run`). So it does not wait for
as many bytes as the queue holds, and for more it does
(`polling_waits`). `slipif_poll` asks for one byte until none is there,
and always waits at the end of the queue (`slipifPoll_run`), with every
byte of it processed.
-/

namespace SlipBoard

namespace Slip

open Receiver

variable {σ : Type} {stack : Stack σ} {q : List UInt8} {data : ℕ → UInt8} {len : UInt32}

/-! ## Reading -/

/-- **The loop of `sio_read`** on a queue with enough bytes, -/
theorem sioReadLoop_of_le {left : ℕ} : ∀ (i : ℕ) (data : ℕ → UInt8) {q : List UInt8},
    left ≤ q.length → ∃ data', (sioReadLoop left i data).run q = .returned data' (q.drop left) ∧
      (∀ k, k < i → data' k = data k) ∧ ∀ k, k < left → q[k]? = some (data' (i + k)) := by
  induction left with
  | zero =>
    intro i data q _
    exact ⟨data, run_done _ _, fun _ _ => rfl, fun k hk => absurd hk (Nat.not_lt_zero k)⟩
  | succ left ih =>
    intro i data q hle
    cases q with
    | nil => exact absurd hle (Nat.not_succ_le_zero left)
    | cons c q =>
      rw [List.length_cons] at hle
      obtain ⟨data', hrun, hbefore, hread⟩ :=
        ih (i + 1) (Function.update data i c) (show left ≤ q.length by omega)
      refine ⟨data', hrun, fun k hk => ?_, fun k hk => ?_⟩
      · rw [hbefore k (by omega), Function.update_of_ne (by omega)]
      · cases k with
        | zero =>
          rw [List.getElem?_cons_zero, Nat.add_zero, hbefore i (by omega), Function.update_self]
        | succ k =>
          rw [List.getElem?_cons_succ, hread k (by omega), Nat.add_assoc, Nat.add_comm 1 k]

/-- and on one with fewer. -/
theorem sioReadLoop_of_lt {left : ℕ} : ∀ (i : ℕ) (data : ℕ → UInt8) {q : List UInt8},
    q.length < left → ∃ next, (sioReadLoop left i data).run q = .waiting next := by
  induction left with
  | zero =>
    intro i data q hlt
    exact absurd hlt (Nat.not_lt_zero _)
  | succ left ih =>
    intro i data q hlt
    cases q with
    | nil => exact ⟨_, rfl⟩
    | cons c q =>
      rw [List.length_cons] at hlt
      exact ih (i + 1) (Function.update data i c) (by omega)

/-- **`sio_tryread` as it is documented**: it returns with as many bytes
as there are, up to `len`, which are the first of the queue and are gone
from it. -/
def TriesRead (q : List UInt8) (data : ℕ → UInt8) (len : UInt32) : Prop :=
  ∃ data' n, (sioTryread data len).run q = .returned (data', n) (q.drop n.toNat) ∧
    n.toNat = min len.toNat q.length ∧ ∀ k, k < n.toNat → q[k]? = some (data' k)

/-- It returns where the queue holds `len` bytes, and takes these from it. -/
theorem triesRead_of_le (h : len.toNat ≤ q.length) : TriesRead q data len := by
  obtain ⟨data', hrun, -, hread⟩ := sioReadLoop_of_le 0 data h
  refine ⟨data', len, run_bind_of_returned hrun, (Nat.min_eq_left h).symm, fun k hk => ?_⟩
  rw [hread k hk, Nat.zero_add]

/-- It waits where the queue does not hold them, instead of returning with
fewer. -/
theorem sioTryread_waits (data : ℕ → UInt8) (h : q.length < len.toNat) :
    ∃ next, (sioTryread data len).run q = .waiting next := by
  obtain ⟨next, hrun⟩ := sioReadLoop_of_lt 0 data h
  exact ⟨_, run_bind_of_waiting hrun⟩

/-- What it waits for is the rest of its `len` bytes. -/
theorem sioTryread_resumes {next : UInt8 → Receiver UInt8 ((ℕ → UInt8) × UInt32)}
    {more : List UInt8} (hwait : (sioTryread data len).run q = .waiting next)
    (hlen : len.toNat ≤ (q ++ more).length) :
    ∃ data', (receive next).run more = .returned (data', len) ((q ++ more).drop len.toNat) ∧
      ∀ k, k < len.toNat → (q ++ more)[k]? = some (data' k) := by
  obtain ⟨data', hrun, -, hread⟩ := sioReadLoop_of_le 0 data hlen
  refine ⟨data', ?_, fun k hk => ?_⟩
  · rw [← run_append_of_waiting hwait]
    exact run_bind_of_returned hrun
  · rw [hread k hk, Nat.zero_add]

theorem triesRead_iff : TriesRead q data len ↔ len.toNat ≤ q.length := by
  refine ⟨fun h => Nat.not_lt.1 fun hlt => ?_, triesRead_of_le⟩
  obtain ⟨data', n, hrun, -⟩ := h
  obtain ⟨next, hwait⟩ := sioTryread_waits data hlt
  rw [hwait] at hrun
  cases hrun

/-! ## Polling -/

/-- The bytes of a queue, processed one after the other as `slipif_poll`
does with what it reads. -/
def process (stack : Stack σ) (s : σ × SlipifPriv) (q : List UInt8) : σ × SlipifPriv :=
  q.foldl (slipifRxbyteInput stack) s

/-- A round with a byte in the queue processes the byte that was read
before, and reads this one. -/
theorem slipifPoll_cons (rounds : ℕ) (s : σ × SlipifPriv) (c b : UInt8) (q : List UInt8) :
    (slipifPoll stack (rounds + 1) s c).run (b :: q) =
      (slipifPoll stack rounds (slipifRxbyteInput stack s b) b).run q := by
  have hdata : Function.update (fun _ => c) 0 b 0 = b := Function.update_self _ _ _
  show (slipifPoll stack rounds (slipifRxbyteInput stack s
    (Function.update (fun _ => c) 0 b 0)) (Function.update (fun _ => c) 0 b 0)).run q = _
  rw [hdata]

/-- **The loop never ends**: with rounds enough it waits behind the last
byte, as it does on an empty queue when all of them have been
processed. -/
theorem slipifPoll_run : ∀ {q : List UInt8} {s : σ × SlipifPriv} {c : UInt8} (rounds : ℕ),
    ∃ c' next, (slipifPoll stack (q.length + (rounds + 1)) s c).run q = .waiting next ∧
      (slipifPoll stack (rounds + 1) (process stack s q) c').run [] = .waiting next := by
  intro q
  induction q with
  | nil =>
    intro s c rounds
    rw [List.length_nil, Nat.zero_add]
    exact ⟨c, _, rfl, rfl⟩
  | cons b q ih =>
    intro s c rounds
    rw [List.length_cons, Nat.add_right_comm, slipifPoll_cons]
    exact ih rounds

/-- **`slipif_poll` as it is documented**: it returns, with the bytes of
the queue processed and no others. -/
def Polls (stack : Stack σ) (q : List UInt8) (s : σ × SlipifPriv) (c : UInt8) : Prop :=
  ∃ rounds, (slipifPoll stack rounds s c).run q = .returned (some (process stack s q)) []

/-- In whatever number of rounds, it does not return. -/
theorem not_returned {rounds : ℕ} : ∀ {q left : List UInt8} {s s' : σ × SlipifPriv} {c : UInt8},
    (slipifPoll stack rounds s c).run q ≠ .returned (some s') left := by
  induction rounds with
  | zero =>
    intro q left s s' c h
    rw [slipifPoll, pure_eq, run_done] at h
    cases h
  | succ rounds ih =>
    intro q left s s' c h
    cases q with
    | nil => cases h
    | cons b q =>
      rw [slipifPoll_cons] at h
      exact ih h

/-- **Polling waits.** `sio_tryread` does what it is documented to do, to
return at once with what is there, exactly where the queue holds all the
bytes it is asked for; on a shorter queue it waits for the rest.
`slipif_poll`, which asks until a byte is not there, waits on every queue. -/
theorem polling_waits (stack : Stack σ) :
    (∀ q data len, TriesRead q data len ↔ len.toNat ≤ q.length) ∧
      ∀ q s c, ¬ Polls stack q s c :=
  ⟨fun _ _ _ => triesRead_iff, fun _ _ _ ⟨_, h⟩ => not_returned h⟩

/-- **An empty queue**, from which one byte is to be read: the call waits,
though it is told not to. -/
theorem tryread_waits_on_empty : ¬ TriesRead [] (fun _ => 0) 1 ∧
    ∃ next, (sioTryread (fun _ => 0) 1).run [] = .waiting next := by
  refine ⟨?_, _, rfl⟩
  rintro ⟨data', n, hrun, -⟩
  cases hrun

end Slip

end SlipBoard
