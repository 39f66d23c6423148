import SlipBoard.Common.Transition
import SlipBoard.Telnet.Model.Prompt
import SlipBoard.Xprintf.Format
/-!
# Telnet console — repeated logins

The first login of a user finds the prompt as it was built, and leaves
it nine characters longer. A second login takes those for visible ones,
and adds nine more. So the logins of a run are in order exactly when no
user logs in twice, and no name outgrows the buffer by its line feeds
(`logins_stable_iff`).
-/

namespace SlipBoard

namespace Telnet

open Transition

variable {users : List UserTelNet} {u : UserTelNet} {row : Row} {table : ℕ → Row} {i : ℕ}

/-- Every prompt is the name and the same three characters. -/
def Built (users : List UserTelNet) : Prop :=
  ∀ u ∈ users, u.nameConsol.bytes = u.name.bytes ++ ascii " > "

/-- **A login in order**: no write goes past `namem` or `nameConsol`, the
password stays what it was, and the length set is that of the visible
prompt. -/
def LoginStable (users : List UserTelNet) (table : ℕ → Row) (i : ℕ) : Prop :=
  (setConsolePrompt (table i)).written ≤ nameConsolSize ∧
    (setConsolePrompt (table i)).row.slice passworldAt tnMaxSizeStr =
      (table i).slice passworldAt tnMaxSizeStr ∧
    (setConsolePrompt (table i)).promptLen = (users.getD i .zero).name.bytes.length + 3

/-- The prompt of a name fits the buffer, its line feeds doubled. -/
def NameFits (name : List UInt8) : Prop := name.length + name.count 10 ≤ tnMaxSizeStr

instance (name : List UInt8) : Decidable (NameFits name) := inferInstanceAs (Decidable (_ ≤ _))

/-! ## The strings of a row -/

/-- `xputs` puts what `xputc` does of each character, with a CR in front of
each line feed. -/
theorem xputs_eq_crlf (str : List UInt8) : xputs str = Xprintf.crlf str := rfl

/-- The layout of a row of the table: the name, the prompt behind it, the
password, and the flag. -/
theorem layout : tnMaxSizeStr = 16 ∧ nameConsolAt = 16 ∧ nameConsolSize = 29 ∧ passworldAt = 45 ∧
    isAdminAt = 61 :=
  ⟨rfl, rfl, rfl, rfl, rfl⟩

/-- The prompt a row is built with is the string at its place. -/
theorem cstr_row (u : UserTelNet) : u.row.cstr nameConsolAt = u.nameConsol.bytes := by
  have hlayout := layout
  have hname := u.name.fits
  have hprompt := u.nameConsol.fits
  have hpass := u.passworld.fits
  refine Block.cstr_eq ?_ u.nameConsol.noNul (Or.inr ⟨by omega, ?_⟩)
  · rw [UserTelNet.row, Block.slice_set_of_le (by omega), Block.slice_overwrite_of_le (by omega),
      Block.slice_overwrite]
  · rw [UserTelNet.row, Block.byte_set_of_ne (by omega), Block.byte_overwrite, if_neg (by omega),
      Block.byte_overwrite, if_neg (by omega), Block.byte_overwrite, if_neg (by omega)]

/-- How many bytes a call writes: the prompt with a CR for each of its line
feeds, the texts around it, and a NUL. -/
theorem written_eq (row : Row) : (setConsolePrompt row).written =
    (row.cstr nameConsolAt).length + (row.cstr nameConsolAt).count 10 + 10 := by
  have hbegin : ∀ admin, (colorBegin admin).length = 5 := by
    intro admin
    cases admin <;> rfl
  have hend : endColor.length = 4 := rfl
  simp only [setConsolePrompt, List.length_append, hbegin, hend, xputs_eq_crlf, Xprintf.length_crlf,
    List.length_singleton]
  omega

/-- A call that fits the field of the prompt leaves the password behind it
alone. -/
theorem passworld_setConsolePrompt (h : (setConsolePrompt row).written ≤ nameConsolSize) :
    (setConsolePrompt row).row.slice passworldAt tnMaxSizeStr =
      row.slice passworldAt tnMaxSizeStr :=
  Block.slice_overwrite_of_ge (Nat.add_le_add_left h nameConsolAt)

/-- And the prompt nine characters longer, its line feeds doubled. -/
theorem length_cstr_setConsolePrompt (hnul : 0 ∉ row.cstr nameConsolAt)
    (h : (setConsolePrompt row).written ≤ nameConsolSize) :
    ((setConsolePrompt row).row.cstr nameConsolAt).length =
      (row.cstr nameConsolAt).length + (row.cstr nameConsolAt).count 10 + 9 := by
  have hlayout := layout
  have hwritten := written_eq row
  obtain ⟨text, heq⟩ : ∃ text, text = colorBegin (row.byte isAdminAt ≠ 0) ++
      xputs (row.cstr nameConsolAt) ++ endColor := ⟨_, rfl⟩
  have hlen : text.length + 1 = (setConsolePrompt row).written := by
    rw [heq]
    simp only [setConsolePrompt, List.length_append, List.length_singleton]
  have hrow : (setConsolePrompt row).row = row.overwrite nameConsolAt (text ++ [0]) := by
    rw [heq]
    rfl
  have htext : 0 ∉ text := by
    have hbegin : ∀ admin, 0 ∉ colorBegin admin := by
      intro admin
      cases admin <;> decide
    rw [heq]
    simp only [List.mem_append, not_or]
    exact ⟨⟨hbegin _, Xprintf.nul_notMem_crlf hnul⟩, by decide⟩
  have hcstr : (setConsolePrompt row).row.cstr nameConsolAt = text := by
    rw [hrow]
    exact Block.cstr_overwrite_nul htext (by omega)
  rw [hcstr]
  omega

/-! ## Runs of logins -/

/-- Where a run of logins stands: a user that has logged in has a prompt
too long to be visible, and the others the one they were built with. -/
structure Repainted (users : List UserTelNet) (seen : List ℕ) (table : ℕ → Row) : Prop where
  fresh : ∀ i, i ∉ seen → table i = tableOf users i
  seen : ∀ i ∈ seen, (users.getD i .zero).name.bytes.length + 3 <
    ((table i).cstr nameConsolAt).length

theorem Repainted.start (users : List UserTelNet) : Repainted users [] (tableOf users) :=
  ⟨fun _ _ => rfl, fun i hi => by cases hi⟩

theorem prompt_of_fresh (hbuilt : Built users) (hi : i < users.length)
    (h : table i = tableOf users i) :
    (table i).cstr nameConsolAt = (users.getD i .zero).name.bytes ++ ascii " > " := by
  have hu : users.getD i .zero = users[i] := by simp [hi]
  rw [h, tableOf, cstr_row, hu]
  exact hbuilt _ (List.getElem_mem hi)

/-- **A login is in order** exactly when it is the user's first, and the
name fits. -/
theorem loginStable_iff (hbuilt : Built users) {seen : List ℕ} (h : Repainted users seen table)
    (hi : i < users.length) :
    LoginStable users table i ↔ i ∉ seen ∧ NameFits (users.getD i .zero).name.bytes := by
  have hlayout := layout
  have hwritten := written_eq (table i)
  have hlen : (setConsolePrompt (table i)).promptLen = ((table i).cstr nameConsolAt).length := rfl
  by_cases hseen : i ∈ seen
  · have hlong := h.seen i hseen
    exact iff_of_false (fun hstable => by have := hstable.2.2; omega) fun hfirst => hfirst.1 hseen
  · have hprompt := prompt_of_fresh hbuilt hi (h.fresh i hseen)
    have hthree : (ascii " > ").length = 3 ∧ (ascii " > ").count 10 = 0 := by decide
    rw [hprompt, List.length_append, List.count_append, hthree.1, hthree.2] at hwritten
    have hvisible : (setConsolePrompt (table i)).promptLen =
        (users.getD i .zero).name.bytes.length + 3 := by
      rw [hlen, hprompt, List.length_append, hthree.1]
    unfold NameFits
    constructor
    · rintro ⟨hfits, -, -⟩
      exact ⟨hseen, by omega⟩
    · rintro ⟨-, hname⟩
      have hfits : (setConsolePrompt (table i)).written ≤ nameConsolSize := by omega
      exact ⟨hfits, passworld_setConsolePrompt hfits, hvisible⟩

/-- A login in order leaves a prompt that is too long for the next. -/
theorem Repainted.step (hbuilt : Built users) {seen : List ℕ} (h : Repainted users seen table)
    (hi : i < users.length) (hstable : LoginStable users table i) :
    Repainted users (i :: seen) (Function.update table i (setConsolePrompt (table i)).row) := by
  obtain ⟨hfirst, -⟩ := (loginStable_iff hbuilt h hi).1 hstable
  have hprompt := prompt_of_fresh hbuilt hi (h.fresh i hfirst)
  have hnul : 0 ∉ (table i).cstr nameConsolAt := by
    rw [hprompt, List.mem_append, not_or]
    exact ⟨(users.getD i .zero).name.noNul, by decide⟩
  constructor
  · intro j hj
    obtain ⟨hne, hj⟩ := not_or.1 (List.mem_cons.not.1 hj)
    rw [Function.update_of_ne hne]
    exact h.fresh j hj
  · intro j hj
    by_cases hji : j = i
    · subst hji
      rw [Function.update_self, length_cstr_setConsolePrompt hnul hstable.1, hprompt,
        List.length_append]
      have hthree : (ascii " > ").length = 3 := rfl
      omega
    · rw [Function.update_of_ne hji]
      exact h.seen j ((List.mem_cons.1 hj).resolve_left hji)

theorem along_logins_iff (hbuilt : Built users) {logins seen : List ℕ}
    (hlogins : ∀ i ∈ logins, i < users.length) (h : Repainted users seen table) :
    Along loginOf (LoginStable users) table logins ↔
      (∀ i ∈ logins, i ∉ seen) ∧ logins.Nodup ∧
        ∀ i ∈ logins, NameFits (users.getD i .zero).name.bytes := by
  induction logins generalizing seen table with
  | nil => simp [Along]
  | cons i logins ih =>
    obtain ⟨hi, hrest⟩ := List.forall_mem_cons.1 hlogins
    have hiff := loginStable_iff hbuilt h hi
    simp only [Along, loginOf, Option.some.injEq, forall_eq', List.forall_mem_cons, List.nodup_cons]
    by_cases hstable : LoginStable users table i
    · obtain ⟨hfirst, hname⟩ := hiff.1 hstable
      rw [ih hrest (h.step hbuilt hi hstable)]
      simp only [hstable, hfirst, hname, true_and, not_false_eq_true, List.mem_cons, not_or]
      constructor
      · rintro ⟨hnew, hnodup, hfits⟩
        exact ⟨fun j hj => (hnew j hj).2, ⟨fun hmem => (hnew i hmem).1 rfl, hnodup⟩, hfits⟩
      · rintro ⟨hnew, ⟨hmem, hnodup⟩, hfits⟩
        exact ⟨fun j hj => ⟨fun heq => hmem (heq ▸ hj), hnew j hj⟩, hnodup, hfits⟩
    · refine iff_of_false (fun hall => hstable hall.1) ?_
      rintro ⟨⟨hfirst, -⟩, -, hname, -⟩
      exact hstable (hiff.2 ⟨hfirst, hname⟩)

/-- **Logins are stable exactly when no user logs in twice**, and the names
fit with their line feeds doubled. A login lengthens the prompt it finds, so
the second login of a user takes what the first has added for a part of the
name, and adds as much again. -/
theorem logins_stable_iff (users : List UserTelNet) (hbuilt : Built users) (logins : List ℕ)
    (hlogins : ∀ i ∈ logins, i < users.length) :
    Along loginOf (LoginStable users) (tableOf users) logins ↔
      logins.Nodup ∧ ∀ i ∈ logins, NameFits (users.getD i .zero).name.bytes := by
  rw [along_logins_iff hbuilt hlogins (.start users)]
  simp

theorem built_initUsers : Built initUsers := by
  intro u hu
  rcases List.mem_cons.1 hu with rfl | hu
  · rfl
  · rw [List.mem_singleton.1 hu]
    rfl

/-- One login of each of the two users, after which the table is as it was. -/
theorem logins_stable_both : Along loginOf (LoginStable initUsers) (tableOf initUsers) [1, 0] :=
  (logins_stable_iff initUsers built_initUsers [1, 0] (by decide)).2 (by decide)

/-- **A second login** of "admin" sets the length of the coloured prompt,
seventeen, though eight characters of it are seen. -/
theorem second_login : ¬ ∀ (users : List UserTelNet), Built users → ∀ logins : List ℕ,
    (∀ i ∈ logins, i < users.length) →
      Along loginOf (LoginStable users) (tableOf users) logins := by
  intro h
  have hboth := h initUsers built_initUsers [0, 0] (by decide)
  obtain ⟨-, hsecond⟩ := hboth
  have hlen := (hsecond _ rfl).1.2.2
  exact absurd hlen (by decide +kernel)

/-- The third runs into the password. -/
example : (run loginOf (tableOf initUsers) [0, 0, 0]).map (fun table => (table 0).cstr passworldAt) ≠
    some (ascii "admin") := by
  decide +kernel

end Telnet

end SlipBoard
