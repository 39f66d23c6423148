import SlipBoard.Common.Transition
import SlipBoard.Telnet.Login
/-!
# Telnet console — the edit buffer

`option->val` has sixteen cells, and a character is appended while
`numS` is below sixteen, so `numS` gets to sixteen and no further
(`numS_console_le`). Enter stores its terminator at `numS` without a
test. So a store leaves the buffer exactly where Enter comes in one of
the prompts over a full buffer (`stores_in_range_iff`).
-/

namespace SlipBoard

namespace Telnet

open Transition

variable {users : List UserTelNet} {o : OptionsUser} {b : UInt8}

/-- A byte of the session as a step of its options. -/
def typed (users : List UserTelNet) (o : OptionsUser) (b : UInt8) : Option OptionsUser :=
  some (telNetConsole users b o).1

/-- The indices at which calls stored to `option->val`, whether or not its
sixteen bytes have them. -/
def stores (calls : List Call) : List ℕ :=
  calls.filterMap fun
    | .storeVal i => some i
    | _ => none

@[simp] theorem stores_append (calls calls' : List Call) :
    stores (calls ++ calls') = stores calls ++ stores calls' := List.filterMap_append

theorem mem_stores {calls : List Call} {i : ℕ} : i ∈ stores calls ↔ .storeVal i ∈ calls := by
  unfold stores
  rw [List.mem_filterMap]
  constructor
  · rintro ⟨c, hc, hi⟩
    cases c <;> simp_all
  · intro h
    exact ⟨.storeVal i, h, rfl⟩

/-- Enter comes in a prompt only over a buffer with a cell left. -/
def EnterFits (o : OptionsUser) (b : UInt8) : Prop :=
  isEnter b = true → o.state ≠ .input → o.numS < tnMaxSizeStr

instance (o : OptionsUser) (b : UInt8) : Decidable (EnterFits o b) :=
  inferInstanceAs (Decidable (_ → _ → _))

/-! ## The stores of a byte -/

/-- The search of the user table stores nothing: it only compares. -/
theorem stores_findUser (users : List UserTelNet) (o : OptionsUser) :
    stores (findUser users o).2 = [] := by
  have hfold : ∀ (rows : List (UserTelNet × ℕ)) (r : OptionsUser × List Call),
      stores r.2 = [] → stores (rows.foldl tryUser r).2 = [] := by
    intro rows
    induction rows with
    | nil => exact fun r hr => hr
    | cons row rows ih =>
      intro r hr
      refine ih _ ?_
      unfold tryUser
      split
      · rw [stores_append, hr]
        rfl
      · exact hr
  exact hfold _ _ rfl

theorem stores_enterLogin (o : OptionsUser) : stores (enterLogin users o).2 = [o.numS] := by
  have hfind := stores_findUser users o.terminate.1
  unfold enterLogin
  simp only
  split <;> simp [stores, OptionsUser.terminate] at hfind ⊢ <;> exact hfind

theorem stores_enterPass (o : OptionsUser) : stores (enterPass users o).2 = [o.numS] := by
  unfold enterPass
  simp only
  split <;> rfl

theorem stores_append_lt (o : OptionsUser) (b : UInt8) :
    ∀ i ∈ stores (o.append b).2, i < tnMaxSizeStr := by
  intro i hi
  unfold OptionsUser.append at hi
  split at hi
  · cases hi
  · split at hi
    · rw [List.mem_singleton.1 hi]
      assumption
    · cases hi

/-- In the login prompt the stores are in range exactly where an Enter has
room for its NUL. -/
theorem stores_loginInput (o : OptionsUser) (b : UInt8) :
    (∀ i ∈ stores (loginInput users b o).2, i < tnMaxSizeStr) ↔
      (isEnter b = true → o.numS < tnMaxSizeStr) := by
  unfold loginInput
  by_cases hzero : b = 0
  · rw [if_pos hzero, hzero]
    exact iff_of_true (fun i hi => by cases hi) fun h => absurd h (by decide)
  rw [if_neg hzero]
  by_cases henter : isEnter b = true
  · have hstores : stores (.printTelNet [b] :: (enterLogin users o).2) = [o.numS] :=
      stores_enterLogin o
    simp only [henter, if_true, hstores, List.mem_singleton, forall_eq, forall_const]
  · refine iff_of_true ?_ fun h => absurd h henter
    simp only [henter, Bool.false_eq_true, if_false]
    split
    · split <;> exact fun i hi => by cases hi
    · split
      · exact fun i hi => by cases hi
      · exact stores_append_lt o b

/-- In the password prompt they are so on the same condition. -/
theorem stores_passInput (o : OptionsUser) (b : UInt8) :
    (∀ i ∈ stores (passInput users b o).2, i < tnMaxSizeStr) ↔
      (isEnter b = true → o.numS < tnMaxSizeStr) := by
  unfold passInput
  by_cases hzero : b = 0
  · rw [if_pos hzero, hzero]
    exact iff_of_true (fun i hi => by cases hi) fun h => absurd h (by decide)
  rw [if_neg hzero]
  by_cases henter : isEnter b = true
  · simp only [henter, if_true, stores_enterPass, List.mem_singleton, forall_eq, forall_const]
  · refine iff_of_true ?_ fun h => absurd h henter
    simp only [henter, Bool.false_eq_true, if_false]
    split
    · split <;> exact fun i hi => by cases hi
    · split
      · exact fun i hi => by cases hi
      · exact stores_append_lt o b

/-- **The stores of a byte are in range** exactly where Enter fits. -/
theorem stores_console_iff (o : OptionsUser) (b : UInt8) :
    (∀ i ∈ stores (telNetConsole users b o).2, i < tnMaxSizeStr) ↔ EnterFits o b := by
  unfold telNetConsole EnterFits
  cases hst : o.state with
  | loginPrint =>
    have hprint : ∀ calls, stores (.printTelNet (ascii "\rLogin:") :: calls) = stores calls :=
      fun _ => rfl
    simpa [hprint] using stores_loginInput { o with state := .loginInput } b
  | loginInput => simpa using stores_loginInput o b
  | passInput => simpa using stores_passInput o b
  | input =>
    -- an open session stores nothing
    exact iff_of_true (fun i hi => by cases hi) fun _ h => absurd rfl h

/-! ## The number of characters -/

theorem numS_append_le (h : o.numS ≤ tnMaxSizeStr) (b : UInt8) :
    (o.append b).1.numS ≤ tnMaxSizeStr := by
  unfold OptionsUser.append
  split
  · exact h
  · split
    · exact Nat.succ_le_of_lt ‹_›
    · exact h

theorem numS_loginInput_le (h : o.numS ≤ tnMaxSizeStr) (b : UInt8) :
    (loginInput users b o).1.numS ≤ tnMaxSizeStr := by
  unfold loginInput
  split
  · exact h
  split
  · rw [numS_enterLogin]
    exact Nat.zero_le _
  split
  · split
    · exact (Nat.sub_le _ _).trans h
    · exact h
  split
  · exact h
  · exact numS_append_le h b

theorem numS_passInput_le (h : o.numS ≤ tnMaxSizeStr) (b : UInt8) :
    (passInput users b o).1.numS ≤ tnMaxSizeStr := by
  unfold passInput
  split
  · exact h
  split
  · rw [numS_enterPass]
    exact Nat.zero_le _
  split
  · split
    · exact (Nat.sub_le _ _).trans h
    · exact h
  split
  · exact Nat.zero_le _
  · exact numS_append_le h b

/-- **No byte takes `numS` past the size**: a character comes in only where
there is room. -/
theorem numS_console_le (h : o.numS ≤ tnMaxSizeStr) (b : UInt8) :
    (telNetConsole users b o).1.numS ≤ tnMaxSizeStr := by
  unfold telNetConsole
  split
  · exact numS_loginInput_le (o := { o with state := .loginInput }) h b
  · exact numS_loginInput_le h b
  · exact numS_passInput_le h b
  · exact h

/-! ## Sessions -/

theorem stores_callsOf_iff (bs : List UInt8) (o : OptionsUser) :
    (∀ i, .storeVal i ∈ callsOf users o bs → i < tnMaxSizeStr) ↔
      Along (typed users) (fun o b => ∀ i ∈ stores (telNetConsole users b o).2, i < tnMaxSizeStr)
        o bs := by
  induction bs generalizing o with
  | nil => exact iff_of_true (fun i hi => by cases hi) trivial
  | cons b bs ih =>
    have hcalls : callsOf users o (b :: bs) =
        (telNetConsole users b o).2 ++ callsOf users (telNetConsole users b o).1 bs := rfl
    simp only [hcalls, List.mem_append, or_imp, forall_and, ih, Along, mem_stores, typed,
      Option.some.injEq, forall_eq']

/-- **The stores of a session are in range** exactly where no Enter comes in
a prompt over a full buffer: the other keys look at the room first, and the
terminator that Enter stores does not. -/
theorem stores_in_range_iff (users : List UserTelNet) (o₀ : OptionsUser)
    (hstart : o₀.numS ≤ tnMaxSizeStr) (bs : List UInt8) :
    (∀ i, .storeVal i ∈ callsOf users o₀ bs → i < tnMaxSizeStr) ↔
      Along (typed users) EnterFits o₀ bs := by
  rw [stores_callsOf_iff]
  refine along_congr (I := fun o => o.numS ≤ tnMaxSizeStr) ?_ ?_ hstart
  · intro o b t ho ht
    obtain rfl := Option.some.inj ht
    exact numS_console_le ho b
  · exact fun o b _ => stores_console_iff o b

/-- A session that opens: nothing has been typed yet, and the dialogue asks
for the name first. -/
def sessionStart : OptionsUser := ⟨.loginPrint, 0, ⟨fun _ => 0⟩, 0⟩

/-- Fifteen characters, Enter, and one more: the longest line whose NUL
still fits. -/
theorem stores_in_range_fifteen :
    Along (typed initUsers) EnterFits sessionStart (List.replicate 15 97 ++ [13, 97]) ∧
      ∀ i, .storeVal i ∈ callsOf initUsers sessionStart (List.replicate 15 97 ++ [13, 97]) →
        i < tnMaxSizeStr := by
  have hfits : Along (typed initUsers) EnterFits sessionStart (List.replicate 15 97 ++ [13, 97]) := by
    decide +kernel
  exact ⟨hfits, (stores_in_range_iff initUsers sessionStart (by decide) _).2 hfits⟩

/-- **Sixteen characters and Enter** store the terminator behind the buffer,
whose sixteen cells are full. -/
theorem terminator_out_of_range : ¬ ∀ (users : List UserTelNet) (o₀ : OptionsUser),
    o₀.numS = 0 → ∀ (bs : List UInt8) (i : ℕ), .storeVal i ∈ callsOf users o₀ bs →
      i < tnMaxSizeStr := by
  intro h
  have hstore := h initUsers sessionStart rfl (List.replicate 16 97 ++ [13]) 16 (by decide +kernel)
  exact absurd hstore (by decide)

end Telnet

end SlipBoard
