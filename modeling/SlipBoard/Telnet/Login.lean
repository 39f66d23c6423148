import Mathlib.Data.List.Induction
import Mathlib.Data.List.Infix
import Mathlib.Data.List.Nodup
import SlipBoard.Telnet.Model.Console
/-!
# Telnet console — the login is exact

The dialogue asks for a name of the table and then for its password, as
the client has edited them, and the code keeps what is edited in
`option->val` and `numS`. `editedText` is the text itself, read off the
bytes of the session; `Tracks` says the buffer holds it, and every byte
keeps that while no line outgrows the buffer.
What a byte does to the state is then a statement about the text
(`loginInput_state`, `passInput_state`), and the login is a walk over
the session: a name entered, then its password, with no ESC between
(`login_exact`).
-/

namespace SlipBoard

namespace Telnet

variable {users : List UserTelNet} {o o₀ : OptionsUser} {text : List UInt8} {b : UInt8}

/-! ## The session, byte by byte -/

/-- The options that the bytes of a session leave, where the consoles began
with `o₀`. -/
def after (users : List UserTelNet) (o₀ : OptionsUser) (bs : List UInt8) : OptionsUser :=
  ((Build.accest users).consoles bs o₀).1

/-- The calls that those bytes made: what was printed, stored and handed on. -/
def callsOf (users : List UserTelNet) (o₀ : OptionsUser) (bs : List UInt8) : List Call :=
  ((Build.accest users).consoles bs o₀).2

/-- What a byte does to the edited text. Enter, and ESC in the password
prompt, start it afresh. -/
def editStep (state : Var) (text : List UInt8) (b : UInt8) : List UInt8 :=
  if isEnter b then []
  else if b = keyEsc ∧ state = .passInput then []
  else if b = keyDel then text.dropLast
  else if isControlChar b then text
  else text ++ [b]

/-- **The edited text**: what the bytes since the last fresh start spell,
with what a backspace has taken away left out. -/
def editedText (users : List UserTelNet) (o₀ : OptionsUser) (bs : List UInt8) : List UInt8 :=
  (bs.foldl (fun r b => (((Build.accest users).console b r.1).1, editStep r.1.state r.2 b))
    (o₀, [])).2

theorem consoles_concat (build : Build) (bs : List UInt8) (b : UInt8) (o : OptionsUser) :
    build.consoles (bs ++ [b]) o =
      ((build.console b (build.consoles bs o).1).1,
        (build.consoles bs o).2 ++ (build.console b (build.consoles bs o).1).2) := by
  induction bs generalizing o with
  | nil => simp [Build.consoles]
  | cons c bs ih =>
    simp only [List.cons_append, Build.consoles, ih, List.append_assoc]

theorem after_concat (bs : List UInt8) (b : UInt8) :
    after users o₀ (bs ++ [b]) = (telNetConsole users b (after users o₀ bs)).1 := by
  simp only [after, consoles_concat]
  rfl

theorem callsOf_concat (bs : List UInt8) (b : UInt8) :
    callsOf users o₀ (bs ++ [b]) =
      callsOf users o₀ bs ++ (telNetConsole users b (after users o₀ bs)).2 := by
  simp only [callsOf, after, consoles_concat]
  rfl

theorem editedText_concat (bs : List UInt8) (b : UInt8) :
    editedText users o₀ (bs ++ [b]) =
      editStep (after users o₀ bs).state (editedText users o₀ bs) b := by
  have hfst : ∀ (bs : List UInt8) (r : OptionsUser × List UInt8),
      (bs.foldl (fun r b => (((Build.accest users).console b r.1).1,
        editStep r.1.state r.2 b)) r).1 = ((Build.accest users).consoles bs r.1).1 := by
    intro bs
    induction bs with
    | nil => intro r; rfl
    | cons b bs ih => intro r; simp only [List.foldl_cons, ih, Build.consoles]
  simp only [editedText, List.foldl_append, List.foldl_cons, List.foldl_nil, hfst, after]

/-! ## The buffer holds the text -/

/-- `option->val` holds the edited text in front of `numS`, and the text has
no NUL, so it is a string once one is put behind it. -/
structure Tracks (o : OptionsUser) (text : List UInt8) : Prop where
  numS : o.numS = text.length
  val : o.val.slice 0 text.length = text
  noNul : 0 ∉ text

/-- The terminator written, the buffer's string is the text. -/
theorem Tracks.isVal_iff (h : Tracks o text) (hlen : text.length < tnMaxSizeStr)
    (str : CStr tnMaxSizeStr) : o.terminate.1.isVal str = true ↔ text = str.bytes := by
  have hslice : (o.val.set o.numS 0).slice 0 text.length = text := by
    rw [Block.slice_set_of_le (by rw [h.numS]; omega), h.val]
  have hcstr : (o.val.set o.numS 0).cstr 0 = text :=
    Block.cstr_eq hslice h.noNul (Or.inr ⟨by omega, by rw [h.numS]; simp⟩)
  simp [OptionsUser.terminate, OptionsUser.isVal, hcstr]

theorem Tracks.nil (h : o.numS = 0) : Tracks o [] := ⟨h, rfl, by simp⟩

theorem Tracks.dropLast (h : Tracks o text) :
    Tracks { o with numS := o.numS - 1 } text.dropLast := by
  refine ⟨by simp [h.numS], ?_, fun hmem => h.noNul (List.dropLast_subset _ hmem)⟩
  have hval := h.val
  rcases List.eq_nil_or_concat text with rfl | ⟨init, last, rfl⟩
  · rfl
  · rw [List.concat_eq_append, List.length_append, List.length_singleton, Block.slice_succ] at hval
    simpa using (List.append_inj' hval rfl).1

/-- A byte a prompt appends goes behind the text, while the size admits
it. -/
theorem Tracks.append (h : Tracks o text) (hctl : isControlChar b = false)
    (hlen : text.length < tnMaxSizeStr) : Tracks (o.append b).1 (text ++ [b]) := by
  have hb : b ≠ 0 := by
    rintro rfl
    simp [isControlChar] at hctl
  have hlt : o.numS < tnMaxSizeStr := by rw [h.numS]; exact hlen
  simp only [OptionsUser.append, hctl, Bool.false_eq_true, if_false, hlt, if_true]
  refine ⟨by simp [h.numS], ?_, ?_⟩
  · rw [List.length_append, List.length_singleton, Block.slice_succ,
      Block.slice_set_of_le (by rw [h.numS]; omega), h.val, h.numS, Nat.zero_add,
      Block.byte_set_self]
  · simp only [List.mem_append, List.mem_singleton, not_or]
    exact ⟨h.noNul, fun h0 => hb h0.symm⟩

/-! ## The search of the user table -/

/-- No call hands a byte to `recymeMas`, which is the way to the line
editor. -/
def Silent (calls : List Call) : Prop := ∀ d, .recymeMas d ∉ calls

@[simp] theorem silent_nil : Silent [] := fun _ => by simp

@[simp] theorem silent_cons {c : Call} {calls : List Call} :
    Silent (c :: calls) ↔ (∀ d, c ≠ .recymeMas d) ∧ Silent calls := by
  simp only [Silent, List.mem_cons, not_or]
  exact ⟨fun h => ⟨fun d hd => (h d).1 hd.symm, fun d => (h d).2⟩,
    fun h d => ⟨fun hd => h.1 d hd.symm, h.2 d⟩⟩

@[simp] theorem silent_append {calls calls' : List Call} :
    Silent (calls ++ calls') ↔ Silent calls ∧ Silent calls' := by
  simp only [Silent, List.mem_append, not_or, forall_and]

/-- What the search answers: the buffer as it was, and either no match
and nothing changed, or a user whose name the buffer holds. -/
structure Found (users : List UserTelNet) (k : ℕ) (o o' : OptionsUser) : Prop where
  val : o'.val = o.val
  numS : o'.numS = o.numS
  result : (o'.state = o.state ∧ o'.userVal = o.userVal ∧ ∀ u ∈ users, o.isVal u.name = false) ∨
    (o'.state = .passInput ∧ ∃ i u, users[i]? = some u ∧ o.isVal u.name = true ∧
      o'.userVal = k + i)

/-- The search reads the buffer and nothing else, so a match changes
none of those behind it. -/
theorem isVal_congr {o' : OptionsUser} (h : o'.val = o.val) (str : CStr tnMaxSizeStr) :
    o'.isVal str = o.isVal str := by
  simp only [OptionsUser.isVal, h]

theorem foldl_tryUser (users : List UserTelNet) (k : ℕ) (r : OptionsUser × List Call)
    (hr : Silent r.2) : Found users k r.1 ((users.zipIdx k).foldl tryUser r).1 ∧
      Silent ((users.zipIdx k).foldl tryUser r).2 := by
  induction users generalizing k r with
  | nil => exact ⟨⟨rfl, rfl, Or.inl ⟨rfl, rfl, by simp⟩⟩, hr⟩
  | cons u users ih =>
    rw [List.zipIdx_cons, List.foldl_cons]
    by_cases hu : r.1.isVal u.name = true
    · -- a match: the later ones compare with the same buffer
      have hstep : tryUser r (u, k) = ({ r.1 with userVal := k, state := .passInput },
          r.2 ++ [.printTelNet (passPrompt u),
            .xprintf (ascii "User:" ++ u.name.bytes ++ ascii " print passworld\n\r")]) := by
        simp [tryUser, hu]
      obtain ⟨hfound, hsil⟩ := ih (k + 1) (tryUser r (u, k)) (by simp [hstep, hr])
      refine ⟨⟨by rw [hfound.val, hstep], by rw [hfound.numS, hstep], Or.inr ?_⟩, hsil⟩
      rcases hfound.result with ⟨hstate, huser, -⟩ | ⟨hstate, i, v, hv, hval, huser⟩
      · exact ⟨by rw [hstate, hstep], 0, u, rfl, hu, by rw [huser, hstep, Nat.add_zero]⟩
      · refine ⟨hstate, i + 1, v, by simpa using hv, ?_, by omega⟩
        rw [← isVal_congr (show (tryUser r (u, k)).1.val = r.1.val by rw [hstep])]
        exact hval
    · have hstep : tryUser r (u, k) = r := by simp [tryUser, hu]
      rw [hstep]
      obtain ⟨hfound, hsil⟩ := ih (k + 1) r hr
      refine ⟨⟨hfound.val, hfound.numS, ?_⟩, hsil⟩
      rcases hfound.result with ⟨hstate, huser, hnone⟩ | ⟨hstate, i, v, hv, hval, huser⟩
      · exact Or.inl ⟨hstate, huser, by simpa [hu] using hnone⟩
      · exact Or.inr ⟨hstate, i + 1, v, by simpa using hv, hval, by omega⟩

theorem findUser_spec (users : List UserTelNet) (o : OptionsUser) :
    Found users 0 o (findUser users o).1 ∧ Silent (findUser users o).2 :=
  foldl_tryUser users 0 (o, []) silent_nil

/-! ## What a byte does to the state -/

/-- Enter in the login prompt moves on where the buffer holds a name. -/
theorem enterLogin_spec (users : List UserTelNet) (hst : o.state = .loginInput) :
    (enterLogin users o).1.numS = 0 ∧ Silent (enterLogin users o).2 ∧
      (((enterLogin users o).1.state = .loginInput ∧
          ∀ u ∈ users, o.terminate.1.isVal u.name = false) ∨
        ((enterLogin users o).1.state = .passInput ∧ ∃ i u, users[i]? = some u ∧
          o.terminate.1.isVal u.name = true ∧ (enterLogin users o).1.userVal = i)) := by
  obtain ⟨hfound, hsil⟩ := findUser_spec users o.terminate.1
  have hnum : o.terminate.1.numS = 0 := rfl
  have hterm : Silent o.terminate.2 := by simp [OptionsUser.terminate]
  rcases hfound.result with ⟨hstate, -, hnone⟩ | ⟨hstate, i, u, hu, hval, huser⟩
  · have hne : (findUser users o.terminate.1).1.state ≠ .passInput := by
      rw [hstate]
      simp [OptionsUser.terminate, hst]
    unfold enterLogin
    rw [if_pos hne]
    exact ⟨hfound.numS, by simp [hterm, hsil], Or.inl ⟨rfl, hnone⟩⟩
  · unfold enterLogin
    rw [if_neg (not_not_intro hstate)]
    exact ⟨hfound.numS, by simp [hterm, hsil],
      Or.inr ⟨hstate, i, u, hu, hval, huser.trans (Nat.zero_add i)⟩⟩

theorem silent_append_call (o : OptionsUser) (b : UInt8) : Silent (o.append b).2 := by
  unfold OptionsUser.append
  split
  · simp
  · split <;> simp

theorem state_append (o : OptionsUser) (b : UInt8) :
    (o.append b).1.state = o.state ∧ (o.append b).1.userVal = o.userVal := by
  unfold OptionsUser.append
  split
  · exact ⟨rfl, rfl⟩
  · split <;> exact ⟨rfl, rfl⟩

/-- A byte in the login prompt leaves the prompt only as an Enter over a
name of the table. -/
theorem loginInput_state (users : List UserTelNet) (hst : o.state = .loginInput) (b : UInt8) :
    Silent (loginInput users b o).2 ∧
      (((loginInput users b o).1.state = .loginInput ∧
          (isEnter b = true → ∀ u ∈ users, o.terminate.1.isVal u.name = false)) ∨
        ((loginInput users b o).1.state = .passInput ∧ isEnter b = true ∧
          ∃ i u, users[i]? = some u ∧ o.terminate.1.isVal u.name = true ∧
            (loginInput users b o).1.userVal = i)) := by
  unfold loginInput
  by_cases hzero : b = 0
  · subst hzero
    exact ⟨by simp, Or.inl ⟨by simp [hst], by simp [isEnter]⟩⟩
  rw [if_neg hzero]
  by_cases henter : isEnter b = true
  · obtain ⟨-, hsil, hres⟩ := enterLogin_spec users hst
    rw [if_pos henter]
    refine ⟨by simp [hsil], ?_⟩
    rcases hres with ⟨hstate, hnone⟩ | ⟨hstate, hex⟩
    · exact Or.inl ⟨hstate, fun _ => hnone⟩
    · exact Or.inr ⟨hstate, henter, hex⟩
  · simp only [henter, Bool.false_eq_true, if_false]
    split
    · split <;> exact ⟨by simp, Or.inl ⟨hst, by simp⟩⟩
    · split
      · exact ⟨by simp, Or.inl ⟨hst, by simp⟩⟩
      · exact ⟨by simp [silent_append_call], Or.inl ⟨by rw [(state_append o b).1, hst], by simp⟩⟩

/-- A byte in the password prompt opens the session only as an Enter
over the password, and what it then hands on is the literal `"\r"`. -/
theorem passInput_state (users : List UserTelNet) (hst : o.state = .passInput) (b : UInt8) :
    ((passInput users b o).1.state = .input ∧ isEnter b = true ∧
        o.terminate.1.isVal (users.getD o.userVal .zero).passworld = true ∧
        handed (passInput users b o).2 = [13]) ∨
      (Silent (passInput users b o).2 ∧
        (isEnter b = true →
          o.terminate.1.isVal (users.getD o.userVal .zero).passworld = false) ∧
        (((passInput users b o).1.state = .passInput ∧
            (passInput users b o).1.userVal = o.userVal ∧ b ≠ keyEsc) ∨
          ((passInput users b o).1.state = .loginInput ∧ b = keyEsc))) := by
  unfold passInput
  by_cases hzero : b = 0
  · subst hzero
    exact Or.inr ⟨by simp, by simp [isEnter], Or.inl ⟨by simp [hst], by simp, by decide⟩⟩
  rw [if_neg hzero]
  by_cases henter : isEnter b = true
  · have hesc : b ≠ keyEsc := by
      rintro rfl
      exact absurd henter (by decide)
    rw [if_pos henter]
    unfold enterPass
    by_cases hpass : o.terminate.1.isVal (users.getD o.userVal .zero).passworld = true
    · rw [if_pos hpass]
      exact Or.inl ⟨rfl, henter, hpass, rfl⟩
    · rw [if_neg hpass]
      exact Or.inr ⟨by simp [OptionsUser.terminate], fun _ => by simpa using hpass,
        Or.inl ⟨hst, rfl, hesc⟩⟩
  · simp only [henter, Bool.false_eq_true, if_false]
    refine Or.inr ?_
    split
    · have hesc : b ≠ keyEsc := by
        rintro rfl
        exact absurd ‹_› (by decide)
      split <;> exact ⟨by simp, by simp, Or.inl ⟨hst, rfl, hesc⟩⟩
    · split
      · exact ⟨by simp, by simp, Or.inr ⟨rfl, ‹_›⟩⟩
      · obtain ⟨hs, hu⟩ := state_append o b
        exact ⟨silent_append_call o b, by simp, Or.inl ⟨by rw [hs, hst], hu, ‹_›⟩⟩

/-! ## The text behind a byte -/

theorem Tracks.append_default (h : Tracks o text) (hlen : text.length < tnMaxSizeStr) :
    Tracks (o.append b).1 (if isControlChar b then text else text ++ [b]) := by
  by_cases hctl : isControlChar b = true
  · simp only [OptionsUser.append, hctl, if_true]
    exact h
  · rw [if_neg hctl]
    exact h.append (by simpa using hctl) hlen

theorem Tracks.del (h : Tracks o text) (hzero : o.numS = 0) : Tracks o text.dropLast := by
  have hnil : text = [] := List.length_eq_zero_iff.mp (by rw [← h.numS, hzero])
  subst hnil
  exact h

theorem numS_enterLogin (o : OptionsUser) : (enterLogin users o).1.numS = 0 := by
  have hfound := (findUser_spec users o.terminate.1).1
  simp only [enterLogin]
  split
  · exact hfound.numS
  · exact hfound.numS

theorem numS_enterPass (o : OptionsUser) : (enterPass users o).1.numS = 0 := by
  simp only [enterPass]
  split <;> rfl

/-- A byte in the login prompt edits buffer and text alike. -/
theorem loginInput_tracks (h : Tracks o text) (hlen : text.length < tnMaxSizeStr)
    (state : Var) (hst : state ≠ .passInput) (b : UInt8) :
    Tracks (loginInput users b o).1 (editStep state text b) := by
  unfold loginInput editStep
  by_cases hzero : b = 0
  · subst hzero
    exact h
  rw [if_neg hzero]
  by_cases henter : isEnter b = true
  · simp only [henter, if_true]
    exact Tracks.nil (numS_enterLogin o)
  simp only [henter, Bool.false_eq_true, if_false, hst, and_false]
  by_cases hdel : b = keyDel
  · simp only [hdel, if_true]
    by_cases hnum : o.numS = 0
    · simp only [hnum, ne_eq, not_true_eq_false, if_false]
      exact h.del hnum
    · simp only [hnum, ne_eq, not_false_eq_true, if_true]
      exact h.dropLast
  simp only [hdel, if_false]
  by_cases hesc : b = keyEsc
  · -- ESC is a control character, which the edited text ignores as well
    subst hesc
    exact h
  · simp only [hesc, if_false]
    exact h.append_default hlen

/-- So does a byte in the password prompt, as long as the text has not
outgrown the buffer. -/
theorem passInput_tracks (h : Tracks o text) (hlen : text.length < tnMaxSizeStr) (b : UInt8) :
    Tracks (passInput users b o).1 (editStep .passInput text b) := by
  unfold passInput editStep
  by_cases hzero : b = 0
  · subst hzero
    exact h
  rw [if_neg hzero]
  by_cases henter : isEnter b = true
  · simp only [henter, if_true]
    exact Tracks.nil (numS_enterPass o)
  simp only [henter, Bool.false_eq_true, if_false, and_true]
  by_cases hdel : b = keyDel
  · subst hdel
    by_cases hnum : o.numS = 0
    · simp only [hnum, ne_eq, not_true_eq_false, if_false, if_true]
      exact h.del hnum
    · simp only [hnum, ne_eq, not_false_eq_true, if_true]
      exact h.dropLast
  simp only [hdel, if_false]
  by_cases hesc : b = keyEsc
  · simp only [hesc, if_true]
    exact Tracks.nil rfl
  · simp only [hesc, if_false]
    exact h.append_default hlen

/-- The buffer holds the text for as long as the session is not open and
no line has outgrown it. -/
theorem after_tracks (hnum : o₀.numS = 0) (bs : List UInt8)
    (hlines : ∀ p, p <+: bs → (after users o₀ p).state ≠ .input →
      (editedText users o₀ p).length < tnMaxSizeStr)
    (hopen : (after users o₀ bs).state ≠ .input) :
    Tracks (after users o₀ bs) (editedText users o₀ bs) := by
  induction bs using List.reverseRecOn with
  | nil => exact Tracks.nil hnum
  | append_singleton bs b ih =>
    have hpre : bs <+: bs ++ [b] := List.prefix_append bs [b]
    rw [after_concat] at hopen ⊢
    rw [editedText_concat]
    -- an open session stays open, so it was not open before
    have hne : (after users o₀ bs).state ≠ .input := by
      intro h
      exact hopen (by simp [telNetConsole, h])
    have htr := ih (fun p hp => hlines p (hp.trans hpre)) hne
    have hlen := hlines bs hpre hne
    unfold telNetConsole
    cases hst : (after users o₀ bs).state with
    | loginPrint =>
      exact loginInput_tracks (o := { after users o₀ bs with state := .loginInput })
        ⟨htr.numS, htr.val, htr.noNul⟩ hlen .loginPrint (by decide) b
    | loginInput => exact loginInput_tracks htr hlen .loginInput (by decide) b
    | passInput => exact passInput_tracks htr hlen b
    | input => exact absurd hst hne

/-! ## The dialogue -/

/-- An Enter in the login prompt over the name of `u`, and no ESC since. -/
def NameEntered (users : List UserTelNet) (o₀ : OptionsUser) (u : UserTelNet)
    (bs : List UInt8) : Prop :=
  ∃ p b q, bs = p ++ b :: q ∧ isEnter b = true ∧
    ((after users o₀ p).state = .loginPrint ∨ (after users o₀ p).state = .loginInput) ∧
    editedText users o₀ p = u.name.bytes ∧ keyEsc ∉ q

/-- An Enter in the password prompt over the password of a user whose
name was entered, and no ESC between the two. -/
def LoggedIn (users : List UserTelNet) (o₀ : OptionsUser) (bs : List UInt8) : Prop :=
  ∃ u ∈ users, ∃ p b q, bs = p ++ b :: q ∧ isEnter b = true ∧
    (after users o₀ p).state = .passInput ∧ NameEntered users o₀ u p ∧
    editedText users o₀ p = u.passworld.bytes

variable {bs p q : List UInt8} {u : UserTelNet}

/-- Where a byte stands in a session one byte longer. -/
theorem concat_eq_append_cons {c : UInt8} (h : bs ++ [c] = p ++ b :: q) :
    (bs = p ∧ c = b ∧ q = []) ∨ ∃ q', q = q' ++ [c] ∧ bs = p ++ b :: q' := by
  rcases List.eq_nil_or_concat q with rfl | ⟨q', d, rfl⟩
  · obtain ⟨rfl, hc⟩ := List.append_inj' h rfl
    exact Or.inl ⟨rfl, by simpa using hc, rfl⟩
  · rw [List.concat_eq_append, ← List.cons_append, ← List.append_assoc] at h
    obtain ⟨rfl, hd⟩ := List.append_inj' h rfl
    exact Or.inr ⟨q', by rw [List.concat_eq_append, List.cons.inj hd |>.1], rfl⟩

theorem nameEntered_concat (bs : List UInt8) (b : UInt8) :
    NameEntered users o₀ u (bs ++ [b]) ↔ (NameEntered users o₀ u bs ∧ b ≠ keyEsc) ∨
      (isEnter b = true ∧
        ((after users o₀ bs).state = .loginPrint ∨ (after users o₀ bs).state = .loginInput) ∧
        editedText users o₀ bs = u.name.bytes) := by
  constructor
  · rintro ⟨p, c, q, heq, henter, hst, htext, hesc⟩
    rcases concat_eq_append_cons heq with ⟨rfl, rfl, -⟩ | ⟨q', rfl, hbs⟩
    · exact Or.inr ⟨henter, hst, htext⟩
    · simp only [List.mem_append, List.mem_singleton, not_or] at hesc
      exact Or.inl ⟨⟨p, c, q', hbs, henter, hst, htext, hesc.1⟩, fun h => hesc.2 h.symm⟩
  · rintro (⟨⟨p, c, q, hbs, henter, hst, htext, hesc⟩, hb⟩ | ⟨henter, hst, htext⟩)
    · exact ⟨p, c, q ++ [b], by simp [hbs], henter, hst, htext, by simp [hesc, Ne.symm hb]⟩
    · exact ⟨bs, b, [], rfl, henter, hst, htext, by simp⟩

theorem loggedIn_concat (bs : List UInt8) (b : UInt8) :
    LoggedIn users o₀ (bs ++ [b]) ↔ LoggedIn users o₀ bs ∨
      (isEnter b = true ∧ (after users o₀ bs).state = .passInput ∧
        ∃ u ∈ users, NameEntered users o₀ u bs ∧ editedText users o₀ bs = u.passworld.bytes) := by
  constructor
  · rintro ⟨u, hu, p, c, q, heq, henter, hst, hname, htext⟩
    rcases concat_eq_append_cons heq with ⟨rfl, rfl, -⟩ | ⟨q', rfl, hbs⟩
    · exact Or.inr ⟨henter, hst, u, hu, hname, htext⟩
    · exact Or.inl ⟨u, hu, p, c, q', hbs, henter, hst, hname, htext⟩
  · rintro (⟨u, hu, p, c, q, hbs, henter, hst, hname, htext⟩ | ⟨henter, hst, u, hu, hname, htext⟩)
    · exact ⟨u, hu, p, c, q ++ [b], by simp [hbs], henter, hst, hname, htext⟩
    · exact ⟨u, hu, bs, b, [], rfl, henter, hst, hname, htext⟩

/-- A name stands in one row of the table, so the row the search answers
is the row of the user whose name was entered. -/
theorem mem_iff_of_name (hnames : (users.map (·.name.bytes)).Nodup) {i : ℕ} {v : UserTelNet}
    (hv : users[i]? = some v) (hu : u ∈ users) :
    v.name.bytes = u.name.bytes ↔ users[i]? = some u := by
  constructor
  · intro h
    have huv : u = v := List.inj_on_of_nodup_map hnames hu (List.mem_of_getElem? hv) h.symm
    rw [huv, hv]
  · intro h
    rw [Option.some.inj (hv.symm.trans h)]

/-- The dialogue as the client would tell it, in each state of the
machine. -/
def Told (users : List UserTelNet) (o₀ : OptionsUser) (bs : List UInt8) : Prop :=
  match (after users o₀ bs).state with
  | .loginPrint | .loginInput => ¬ LoggedIn users o₀ bs ∧ Silent (callsOf users o₀ bs) ∧
      ∀ u ∈ users, ¬ NameEntered users o₀ u bs
  | .passInput => ¬ LoggedIn users o₀ bs ∧ Silent (callsOf users o₀ bs) ∧
      (∃ u, users[(after users o₀ bs).userVal]? = some u) ∧
      ∀ u ∈ users, NameEntered users o₀ u bs ↔ users[(after users o₀ bs).userVal]? = some u
  | .input => LoggedIn users o₀ bs

/-- The conditions on a session: the names of the table are distinct,
the session starts in `LoginPrint` with `numS` 0, and no line grows past
15 characters before the session is open. -/
structure Session (users : List UserTelNet) (o₀ : OptionsUser) (bs : List UInt8) : Prop where
  names : (users.map (·.name.bytes)).Nodup
  state : o₀.state = .loginPrint
  numS : o₀.numS = 0
  lines : ∀ p, p <+: bs → (after users o₀ p).state ≠ .input →
    (editedText users o₀ p).length ≤ 15

theorem Session.of_concat (h : Session users o₀ (bs ++ [b])) : Session users o₀ bs :=
  ⟨h.names, h.state, h.numS, fun p hp => h.lines p (hp.trans (List.prefix_append bs [b]))⟩

theorem Session.tracks (h : Session users o₀ bs) (hopen : (after users o₀ bs).state ≠ .input) :
    Tracks (after users o₀ bs) (editedText users o₀ bs) ∧
      (editedText users o₀ bs).length < tnMaxSizeStr :=
  ⟨after_tracks h.numS bs (fun p hp hne => Nat.lt_succ_of_le (h.lines p hp hne)) hopen,
    Nat.lt_succ_of_le (h.lines bs List.prefix_rfl hopen)⟩

/-- A byte in either login state, which run the same code on the options
`o`. -/
theorem told_of_login (hs : Session users o₀ bs) (hlog : ¬ LoggedIn users o₀ bs)
    (hnone : ∀ u ∈ users, ¬ NameEntered users o₀ u bs)
    (hlogin : (after users o₀ bs).state = .loginPrint ∨ (after users o₀ bs).state = .loginInput)
    (hval : o.val = (after users o₀ bs).val) (hnum : o.numS = (after users o₀ bs).numS)
    (hst : o.state = .loginInput) (hafter : after users o₀ (bs ++ [b]) = (loginInput users b o).1)
    (hsil : Silent (loginInput users b o).2 → Silent (callsOf users o₀ (bs ++ [b]))) :
    Told users o₀ (bs ++ [b]) := by
  have hopen : (after users o₀ bs).state ≠ .input := by
    rcases hlogin with h | h <;> simp [h]
  have hpass : (after users o₀ bs).state ≠ .passInput := by
    rcases hlogin with h | h <;> simp [h]
  obtain ⟨htr, hlen⟩ := hs.tracks hopen
  have hisVal : ∀ str, o.terminate.1.isVal str = true ↔ editedText users o₀ bs = str.bytes :=
    Tracks.isVal_iff ⟨by rw [hnum, htr.numS], by rw [hval, htr.val], htr.noNul⟩ hlen
  have hlog' : ¬ LoggedIn users o₀ (bs ++ [b]) := by
    rw [loggedIn_concat]
    rintro (h | ⟨-, h, -⟩)
    · exact hlog h
    · exact hpass h
  obtain ⟨hcalls, hres⟩ := loginInput_state users hst b
  unfold Told
  rw [hafter]
  rcases hres with ⟨hstate, hno⟩ | ⟨hstate, henter, i, v, hv, hname, huser⟩
  · simp only [hstate]
    refine ⟨hlog', hsil hcalls, fun u hu hname => ?_⟩
    rcases (nameEntered_concat bs b).mp hname with ⟨h, -⟩ | ⟨henter, -, htext⟩
    · exact hnone u hu h
    · exact absurd ((hisVal u.name).mpr htext) (by simp [hno henter u hu])
  · simp only [hstate, huser]
    -- no name had been entered before, so the one entered is the one found
    refine ⟨hlog', hsil hcalls, ⟨v, hv⟩, fun u hu => ?_⟩
    rw [nameEntered_concat, ← mem_iff_of_name hs.names hv hu, (hisVal v.name).mp hname]
    exact ⟨fun h => h.elim (fun h => absurd h.1 (hnone u hu)) (fun h => h.2.2),
      fun h => Or.inr ⟨henter, hlogin, h⟩⟩

/-- A byte in the password prompt keeps what is told of the session. -/
theorem told_of_pass (hs : Session users o₀ bs) (htold : Told users o₀ bs)
    (hst : (after users o₀ bs).state = .passInput) : Told users o₀ (bs ++ [b]) := by
  unfold Told at htold
  simp only [hst] at htold
  obtain ⟨hlog, hcalls, ⟨v, hv⟩, hnamed⟩ := htold
  obtain ⟨htr, hlen⟩ := hs.tracks (by simp [hst])
  have hget : users.getD (after users o₀ bs).userVal .zero = v := by simp [List.getD, hv]
  have hafter : after users o₀ (bs ++ [b]) = (passInput users b (after users o₀ bs)).1 := by
    rw [after_concat, telNetConsole, hst]
  have hcallsOf : callsOf users o₀ (bs ++ [b]) =
      callsOf users o₀ bs ++ (passInput users b (after users o₀ bs)).2 := by
    rw [callsOf_concat, telNetConsole, hst]
  have hnologin : ¬ ((after users o₀ bs).state = .loginPrint ∨
      (after users o₀ bs).state = .loginInput) := by simp [hst]
  -- the row that the index names is the row of the name entered
  have hmatch : ∀ u ∈ users, NameEntered users o₀ u bs →
      editedText users o₀ bs = u.passworld.bytes →
      (after users o₀ bs).terminate.1.isVal (users.getD (after users o₀ bs).userVal .zero).passworld
        = true := by
    intro u hu hname htext
    have huv : v = u := Option.some.inj (hv.symm.trans ((hnamed u hu).mp hname))
    rw [hget, huv]
    exact (htr.isVal_iff hlen u.passworld).mpr htext
  unfold Told
  rw [hafter]
  rcases passInput_state users hst b with ⟨hstate, henter, hval, -⟩ |
    ⟨hsil, hno, hres⟩
  · simp only [hstate]
    have hmem := List.mem_of_getElem? hv
    rw [hget] at hval
    exact (loggedIn_concat bs b).mpr (Or.inr ⟨henter, hst, v, hmem, (hnamed v hmem).mpr hv,
      (htr.isVal_iff hlen v.passworld).mp hval⟩)
  · have hlog' : ¬ LoggedIn users o₀ (bs ++ [b]) := by
      rw [loggedIn_concat]
      rintro (h | ⟨henter, -, u, hu, hname, htext⟩)
      · exact hlog h
      · exact absurd ((hno henter).symm.trans (hmatch u hu hname htext)) (by decide)
    have hsil' : Silent (callsOf users o₀ (bs ++ [b])) := by
      rw [hcallsOf, silent_append]
      exact ⟨hcalls, hsil⟩
    rcases hres with ⟨hstate, huser, hesc⟩ | ⟨hstate, rfl⟩
    · simp only [hstate, huser]
      refine ⟨hlog', hsil', ⟨v, hv⟩, fun u hu => ?_⟩
      rw [nameEntered_concat, ← hnamed u hu]
      exact ⟨fun h => h.elim (fun h => h.1) (fun h => absurd h.2.1 hnologin),
        fun h => Or.inl ⟨h, hesc⟩⟩
    · simp only [hstate]
      -- behind the ESC the name does not count any more
      refine ⟨hlog', hsil', fun u hu hname => ?_⟩
      rcases (nameEntered_concat bs keyEsc).mp hname with ⟨-, hne⟩ | ⟨-, h, -⟩
      · exact hne rfl
      · exact hnologin h

theorem told (bs : List UInt8) (hs : Session users o₀ bs) : Told users o₀ bs := by
  induction bs using List.reverseRecOn with
  | nil =>
    have hstate : (after users o₀ []).state = .loginPrint := hs.state
    unfold Told
    simp only [hstate]
    exact ⟨by simp [LoggedIn], silent_nil, fun u _ => by simp [NameEntered]⟩
  | append_singleton bs b ih =>
    have htold := ih hs.of_concat
    cases hst : (after users o₀ bs).state with
    | loginPrint =>
      have hlogin := htold
      unfold Told at hlogin
      simp only [hst] at hlogin
      refine told_of_login hs.of_concat hlogin.1 hlogin.2.2 (Or.inl hst)
        (o := { after users o₀ bs with state := .loginInput }) rfl rfl rfl ?_ ?_
      · rw [after_concat, telNetConsole, hst]
      · intro h
        rw [callsOf_concat, telNetConsole, hst]
        simp [hlogin.2.1, h]
    | loginInput =>
      have hlogin := htold
      unfold Told at hlogin
      simp only [hst] at hlogin
      refine told_of_login hs.of_concat hlogin.1 hlogin.2.2 (Or.inr hst) rfl rfl hst ?_ ?_
      · rw [after_concat, telNetConsole, hst]
      · intro h
        rw [callsOf_concat, telNetConsole, hst]
        simp [hlogin.2.1, h]
    | passInput => exact told_of_pass hs.of_concat htold hst
    | input =>
      -- an open session stays open
      have hafter : (after users o₀ (bs ++ [b])).state = .input := by
        rw [after_concat, telNetConsole, hst, hst]
      unfold Told at htold ⊢
      simp only [hst] at htold
      simp only [hafter]
      exact (loggedIn_concat bs b).mpr (Or.inl htold)

theorem handed_of_silent {calls : List Call} (h : Silent calls) : handed calls = [] := by
  refine List.flatMap_eq_nil_iff.mpr fun c hc => ?_
  cases c with
  | recymeMas d => exact absurd hc (h d)
  | _ => rfl

/-- **The login is exact.** After every byte of a session, the session is
open iff a name of the table was entered and then, with no ESC between,
the password beside it. Until then no byte of the client reaches
`recymeMas`; the byte that opens the session is answered by the literal
`"\r"`. -/
theorem login_exact (hs : Session users o₀ bs) :
    ((after users o₀ bs).state = .input ↔ LoggedIn users o₀ bs) ∧
      ((after users o₀ bs).state ≠ .input → handed (callsOf users o₀ bs) = []) ∧
      ∀ p b, p ++ [b] <+: bs → (after users o₀ p).state ≠ .input →
        (after users o₀ (p ++ [b])).state = .input →
        handed (telNetConsole users b (after users o₀ p)).2 = [13] := by
  have htold := told bs hs
  unfold Told at htold
  refine ⟨?_, ?_, ?_⟩
  · cases hst : (after users o₀ bs).state <;> simp only [hst] at htold <;> simp [htold]
  · intro hopen
    cases hst : (after users o₀ bs).state <;> simp only [hst] at htold
    · exact handed_of_silent htold.2.1
    · exact handed_of_silent htold.2.1
    · exact handed_of_silent htold.2.1
    · exact absurd hst hopen
  · intro p b _ hclosed hopen
    rw [after_concat] at hopen
    unfold telNetConsole at hopen ⊢
    cases hst : (after users o₀ p).state with
    | loginPrint =>
      simp only [hst] at hopen
      rcases (loginInput_state users (o := { after users o₀ p with state := .loginInput }) rfl
        b).2 with ⟨h, -⟩ | ⟨h, -⟩ <;> simp [h] at hopen
    | loginInput =>
      simp only [hst] at hopen
      rcases (loginInput_state users hst b).2 with ⟨h, -⟩ | ⟨h, -⟩ <;> simp [h] at hopen
    | passInput =>
      simp only [hst] at hopen
      rcases passInput_state users hst b with ⟨-, -, -, h⟩ | ⟨-, -, ⟨h, -⟩ | ⟨h, -⟩⟩
      · exact h
      · simp [h] at hopen
      · simp [h] at hopen
    | input => exact absurd hst hclosed

/-- The options a session starts with, over a stack of zeros. -/
def freshOptions : OptionsUser := ⟨.loginPrint, 0, ⟨fun _ => 0⟩, 0⟩

/-- A session that enters a name, gives it up by ESC, mistypes another
and corrects it. -/
def correctedSession : List UInt8 :=
  ascii "admin\r" ++ [keyEsc] ++ ascii "usex" ++ [keyDel] ++ ascii "r\rbad\ruser\r"

theorem login_exact_corrected :
    ((after initUsers freshOptions correctedSession).state = .input ↔
        LoggedIn initUsers freshOptions correctedSession) ∧
      (after initUsers freshOptions correctedSession).state = .input := by
  have hs : Session initUsers freshOptions correctedSession :=
    ⟨by decide, rfl, rfl, fun p hp => by
      have hall : ∀ p ∈ correctedSession.inits, (after initUsers freshOptions p).state ≠ .input →
          (editedText initUsers freshOptions p).length ≤ 15 := by decide +kernel
      exact hall p ((List.mem_inits p correctedSession).mpr hp)⟩
  exact ⟨(login_exact hs).1, by decide +kernel⟩

end Telnet

end SlipBoard
