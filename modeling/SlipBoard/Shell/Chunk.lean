import SlipBoard.Shell.File
/-!
# Telnet server — inside a chunk

The options are read three bytes at a time, whatever `buflen` says, and
the shell looks two characters behind an Escape. So a chunk is handled
inside exactly where it does not end in the middle of what is looked at:
where three bytes are left behind the commands in front of it, six where
a command may leave the binary state, and where what the shell is given
is no longer than its `uint8_t` can tell and ends in no half of an arrow
key (`handle_inside_iff`).
-/

namespace SlipBoard

namespace Shell

open Traced

variable {c : Chunk} {r : Recv}

/-- An access of the options and of the shell stays inside a chunk of `n`
bytes: a read, the length left, and the length the shell is given. -/
def Access.Inside (n : ℕ) : Access → Prop
  | .load i => i < n
  | .minus len k => k ≤ len
  | .shell len ptr => len + ptr = n
  | _ => True

/-! ## What a chunk holds -/

/-- What is left of a chunk behind the commands in front of it, and the
state they lead to, in the text state. -/
def textTail : List UInt8 → TelnetState → List UInt8 × TelnetState
  | iac :: opt :: val :: rest, state =>
    if iac = telnetIac ∧ opt > 250 then
      textTail rest (if val = 0 ∧ opt = telnetWill then .binTran else state)
    else (iac :: opt :: val :: rest, state)
  | rest, state => (rest, state)

/-- The same in the binary state, where `WONT` counts with the `DONT` that
follows it. -/
def fileTail : List UInt8 → TelnetState → List UInt8 × TelnetState
  | iac :: opt :: val :: rest, state =>
    if iac = telnetIac ∧ val = 0 ∧ opt > 250 then
      if opt = telnetWont then
        match rest with
        | iac' :: opt' :: val' :: rest' =>
          if iac' = telnetIac ∧ opt' = telnetDont ∧ val' = 0 then fileTail rest' .normal
          else (iac :: opt :: val :: iac' :: opt' :: val' :: rest', state)
        | rest => (iac :: opt :: val :: rest, state)
      else fileTail rest state
    else (iac :: opt :: val :: rest, state)
  | rest, state => (rest, state)

theorem tail_of_short {rest : List UInt8} (h : rest.length < 3) (state : TelnetState) :
    textTail rest state = (rest, state) ∧ fileTail rest state = (rest, state) := by
  match rest, h with
  | [], _ | [_], _ | [_, _], _ => exact ⟨rfl, rfl⟩

/-- What three bytes in front say of those that are there. -/
theorem three_of_front {a b d x y z : UInt8} {rest : List UInt8}
    (h : [a, b, d] <+: x :: y :: z :: rest) : x = a ∧ y = b ∧ z = d := by
  obtain ⟨_, heq⟩ := h
  simp only [List.cons_append, List.nil_append, List.cons.injEq] at heq
  exact ⟨heq.1.symm, heq.2.1.symm, heq.2.2.1.symm⟩

theorem fileTail_next {iac opt val : UInt8} {rest : List UInt8} {state : TelnetState}
    (hcommand : iac = telnetIac ∧ val = 0 ∧ opt > 250) (hwont : opt ≠ telnetWont) :
    fileTail (iac :: opt :: val :: rest) state = fileTail rest state := by
  conv_lhs => unfold fileTail
  rw [if_pos hcommand, if_neg hwont]

theorem fileTail_leave {iac opt val : UInt8} {rest : List UInt8} {state : TelnetState}
    (hcommand : iac = telnetIac ∧ val = 0 ∧ opt > 250) (hwont : opt = telnetWont) :
    fileTail (iac :: opt :: val :: telnetIac :: telnetDont :: 0 :: rest) state =
      fileTail rest .normal := by
  conv_lhs => unfold fileTail
  rw [if_pos hcommand, if_pos hwont]
  exact if_pos ⟨rfl, rfl, rfl⟩

theorem fileTail_wont {iac opt val : UInt8} {rest : List UInt8} {state : TelnetState}
    (hwont : opt = telnetWont) (hrest : ¬ [telnetIac, telnetDont, 0] <+: rest) :
    fileTail (iac :: opt :: val :: rest) state = (iac :: opt :: val :: rest, state) := by
  unfold fileTail
  rw [if_pos hwont]
  split
  · split
    · refine if_neg ?_
      rintro ⟨rfl, rfl, rfl⟩
      exact hrest (List.prefix_append [telnetIac, telnetDont, 0] _)
    · rfl
  · rfl

theorem fileTail_of_not {iac opt val : UInt8} {rest : List UInt8} {state : TelnetState}
    (hcommand : ¬ (iac = telnetIac ∧ val = 0 ∧ opt > 250)) :
    fileTail (iac :: opt :: val :: rest) state = (iac :: opt :: val :: rest, state) := by
  unfold fileTail
  exact if_neg hcommand

/-- What is left of a chunk behind its commands, and the state then. -/
def tailOf (data : List UInt8) : TelnetState → List UInt8 × TelnetState
  | .normal => textTail data .normal
  | .binTran => fileTail data .binTran

/-- Up to a NUL no Escape stands at the end, and no `ESC [`. -/
def ArrowsWhole : List UInt8 → Prop
  | [] => True
  | ch :: rest =>
    if ch = 0 then True
    else if ch = 0x1b then
      match rest with
      | [] => False
      | next :: rest' =>
        if next = 0x5b then
          match rest' with
          | [] => False
          | _ :: rest'' => ArrowsWhole rest''
        else ArrowsWhole (next :: rest')
    else ArrowsWhole rest

theorem arrowsWhole_nul (rest : List UInt8) : ArrowsWhole (0 :: rest) := by
  unfold ArrowsWhole
  exact if_pos rfl ▸ trivial

theorem arrowsWhole_plain {ch : UInt8} {rest : List UInt8} (hnul : ch ≠ 0) (hesc : ch ≠ 0x1b) :
    ArrowsWhole (ch :: rest) ↔ ArrowsWhole rest := by
  conv_lhs => unfold ArrowsWhole
  rw [if_neg hnul, if_neg hesc]

theorem arrowsWhole_escape {next : UInt8} {rest : List UInt8} (hnext : next ≠ 0x5b) :
    ArrowsWhole (0x1b :: next :: rest) ↔ ArrowsWhole (next :: rest) := by
  conv_lhs => unfold ArrowsWhole
  rw [if_neg (by decide), if_pos rfl]
  exact iff_of_eq (if_neg hnext)

/-- Nothing that is looked at is cut by the end of the chunk. -/
structure Whole (data : List UInt8) (state : TelnetState) : Prop where
  three : 3 ≤ (tailOf data state).1.length
  six : state = .binTran → [telnetIac, telnetWont, 0] <+: (tailOf data state).1 →
    6 ≤ (tailOf data state).1.length
  short : (tailOf data state).2 = .normal → (tailOf data state).1.length ≤ 255
  arrows : (tailOf data state).2 = .normal → ArrowsWhole (tailOf data state).1

/-! ## Looking at three bytes -/

/-- The pointer stands in front of `rest`, and `buflen` is its length. -/
structure Stands (c : Chunk) (r : Recv) (rest : List UInt8) : Prop where
  drop : c.data.drop r.ptr = rest
  ptr_le : r.ptr ≤ c.data.length
  buflen : r.buflen = rest.length

theorem Stands.add_eq {rest : List UInt8} (h : Stands c r rest) :
    r.ptr + rest.length = c.data.length := by
  have := h.ptr_le
  rw [← h.drop, List.length_drop]
  omega

theorem meets_load {n i : ℕ} : (c.load i).Meets (Access.Inside n) ↔ i < n := by
  unfold Meets
  exact List.forall_mem_singleton

theorem peek_meets {i : ℕ} :
    (c.peek i).Meets (Access.Inside c.data.length) ↔ i + 2 < c.data.length := by
  unfold Chunk.peek
  rw [meets_bind_of_answer rfl, meets_bind_of_answer rfl, meets_bind_of_answer rfl, meets_load,
    meets_load, meets_load, and_iff_left (meets_pure _)]
  omega

/-- Three bytes are there, or a read of them is not inside. -/
theorem peek_cases {rest : List UInt8} {i : ℕ} (hdrop : c.data.drop i = rest) :
    (∃ iac opt val rest', rest = iac :: opt :: val :: rest' ∧
      (c.peek i).answer = some (iac, opt, val) ∧
      (c.peek i).Meets (Access.Inside c.data.length)) ∨
    (rest.length < 3 ∧ ¬ (c.peek i).Meets (Access.Inside c.data.length)) := by
  rw [peek_meets]
  have hlen := congrArg List.length hdrop
  rw [List.length_drop] at hlen
  match rest, hdrop with
  | iac :: opt :: val :: rest', hdrop =>
    obtain ⟨-, hiac, htail⟩ := c.byte_of_drop hdrop
    obtain ⟨-, hopt, htail⟩ := c.byte_of_drop htail
    obtain ⟨hlt, hval, -⟩ := c.byte_of_drop htail
    refine .inl ⟨iac, opt, val, rest', rfl, ?_, hlt⟩
    show some (c.byte i, c.byte (i + 1), c.byte (i + 2)) = _
    rw [hiac, hopt, hval]
  | [], _ | [_], _ | [_, _], _ =>
    refine .inr ⟨by simp, ?_⟩
    simp only [List.length_cons, List.length_nil] at hlen
    omega

/-! ## Options -/

/-- Three bytes are consumed, and the receiver stands behind them. -/
theorem Stands.skip {iac opt val : UInt8} {rest : List UInt8}
    (h : Stands c r (iac :: opt :: val :: rest)) (hlen : c.data.length < 2 ^ 16) :
    ∃ r', r.skip.answer = some r' ∧ r.skip.Meets (Access.Inside c.data.length) ∧
      Stands c r' rest ∧ r'.state = r.state := by
  have hadd := h.add_eq
  have hbuflen := h.buflen
  simp only [List.length_cons] at hadd hbuflen
  obtain ⟨-, -, htail⟩ := c.byte_of_drop h.drop
  obtain ⟨-, -, htail⟩ := c.byte_of_drop htail
  obtain ⟨hlt, -, htail⟩ := c.byte_of_drop htail
  refine ⟨_, rfl, ?_, ⟨htail, hlt, ?_⟩, rfl⟩
  · refine List.forall_mem_singleton.2 ?_
    show 3 ≤ r.buflen
    omega
  · show (r.buflen + 2 ^ 16 - 3) % 2 ^ 16 = rest.length
    omega

theorem Stands.congr {rest : List UInt8} (h : Stands c r rest) {r' : Recv}
    (hptr : r'.ptr = r.ptr) (hbuflen : r'.buflen = r.buflen) : Stands c r' rest :=
  ⟨hptr ▸ h.drop, hptr ▸ h.ptr_le, hbuflen.trans h.buflen⟩

theorem telnetOption_frame (option value : UInt8) :
    (r.telnetOption option value).ptr = r.ptr ∧
      (r.telnetOption option value).buflen = r.buflen ∧
      (r.telnetOption option value).state = r.state := by
  unfold Recv.telnetOption
  split <;> exact ⟨rfl, rfl, rfl⟩

theorem command_frame (opt val : UInt8) :
    (r.command opt val).ptr = r.ptr ∧ (r.command opt val).buflen = r.buflen ∧
      (r.command opt val).state =
        if val = 0 ∧ opt = telnetWill then .binTran else r.state := by
  unfold Recv.command
  by_cases hval : val = 0
  · by_cases hopt : opt = telnetWill
    · rw [if_pos hval, if_pos hopt, if_pos ⟨hval, hopt⟩]
      exact ⟨rfl, rfl, rfl⟩
    · rw [if_pos hval, if_neg hopt, if_neg fun h => hopt h.2]
      exact telnetOption_frame opt val
  · rw [if_neg hval, if_neg fun h => hval h.1]
    exact ⟨rfl, rfl, rfl⟩

/-- **The rounds in the text state** stay inside exactly where three bytes
are left behind the commands. -/
theorem optionsNormal_exact (hlen : c.data.length < 2 ^ 16) : ∀ (fuel : ℕ) (r : Recv)
    (rest : List UInt8), Stands c r rest → rest.length < fuel →
    Exact (Access.Inside c.data.length) (3 ≤ (textTail rest r.state).1.length)
      (fun r' => Stands c r' (textTail rest r.state).1 ∧ r'.state = (textTail rest r.state).2)
      (c.optionsNormal fuel r) := by
  intro fuel
  induction fuel with
  | zero =>
    intro r rest _ hfuel
    omega
  | succ fuel ih =>
    intro r rest h hfuel
    rw [Chunk.optionsNormal]
    rcases peek_cases h.drop with ⟨iac, opt, val, rest', rfl, hpeek, hmeets⟩ | ⟨hshort, hmeets⟩
    · refine exact_bind hpeek hmeets ?_
      by_cases hcommand : iac = telnetIac ∧ opt > 250
      · obtain ⟨hptr, hbuflen, hstate⟩ := command_frame (r := r) opt val
        obtain ⟨r', hskip, hmeets', h', hstate'⟩ := (h.congr hptr hbuflen).skip hlen
        simp only [textTail, if_pos hcommand]
        rw [← hstate, ← hstate']
        refine exact_bind hskip hmeets' (ih r' rest' h' ?_)
        simp only [List.length_cons] at hfuel
        omega
      · simp only [textTail, if_neg hcommand]
        exact exact_pure (by simp) ⟨h, rfl⟩
    · refine exact_bind_of_not_meets hmeets ?_
      rw [(tail_of_short hshort r.state).1]
      exact Nat.not_le.2 hshort

theorem leave_frame : r.leave.ptr = r.ptr ∧ r.leave.buflen = r.buflen := by
  obtain ⟨hptr, hbuflen, -⟩ := telnetOption_frame (r := r) telnetWont 0
  obtain ⟨hptr', hbuflen', -⟩ :=
    telnetOption_frame (r := r.telnetOption telnetWont 0) telnetDont 0
  exact ⟨hptr'.trans hptr, hbuflen'.trans hbuflen⟩

/-- Three bytes are left behind the commands, and six where the first of
them are the `WONT` that looks further. -/
def Enough (rest : List UInt8) : Prop :=
  3 ≤ rest.length ∧ ([telnetIac, telnetWont, 0] <+: rest → 6 ≤ rest.length)

/-- **The rounds in the binary state** stay inside exactly where enough is
left behind the commands. -/
theorem optionsBin_exact (hlen : c.data.length < 2 ^ 16) : ∀ (fuel : ℕ) (r : Recv)
    (rest : List UInt8), Stands c r rest → rest.length < fuel →
    Exact (Access.Inside c.data.length) (Enough (fileTail rest r.state).1)
      (fun r' => Stands c r' (fileTail rest r.state).1 ∧ r'.state = (fileTail rest r.state).2)
      (c.optionsBin fuel r) := by
  intro fuel
  induction fuel with
  | zero =>
    intro r rest _ hfuel
    omega
  | succ fuel ih =>
    intro r rest h hfuel
    rw [Chunk.optionsBin]
    rcases peek_cases h.drop with ⟨iac, opt, val, rest', rfl, hpeek, hmeets⟩ | ⟨hshort, hmeets⟩
    · refine exact_bind hpeek hmeets ?_
      by_cases hcommand : iac = telnetIac ∧ val = 0 ∧ opt > 250
      · simp only [if_pos hcommand]
        obtain ⟨r', hskip, hmeets', h', hstate'⟩ := h.skip hlen
        by_cases hwont : opt = telnetWont
        · obtain ⟨-, -, htail⟩ := c.byte_of_drop h.drop
          obtain ⟨-, -, htail⟩ := c.byte_of_drop htail
          obtain ⟨-, -, htail⟩ := c.byte_of_drop htail
          simp only [if_pos hwont]
          obtain ⟨iac', opt', val', rest'', rfl, hpeek, hmeets⟩ | ⟨hshort, hmeets⟩ :=
            peek_cases htail
          · refine exact_bind hpeek hmeets ?_
            by_cases hleave : iac' = telnetIac ∧ opt' = telnetDont ∧ val' = 0
            · obtain ⟨rfl, rfl, rfl⟩ := hleave
              obtain ⟨hptr, hbuflen⟩ := leave_frame (r := r)
              obtain ⟨r₁, hskip₁, hmeets₁, h₁, -⟩ := (h.congr hptr hbuflen).skip hlen
              have hnormal : Stands c { r₁ with state := .normal } _ := h₁.congr rfl rfl
              obtain ⟨r₂, hskip₂, hmeets₂, h₂, hstate₂⟩ := hnormal.skip hlen
              have hrest := ih r₂ rest'' h₂ (by simp only [List.length_cons] at hfuel; omega)
              have hstate : r₂.state = .normal := hstate₂
              rw [hstate] at hrest
              rw [fileTail_leave hcommand hwont]
              exact exact_bind hskip₁ hmeets₁ (exact_bind hskip₂ hmeets₂ hrest)
            · rw [fileTail_wont hwont fun hfront => hleave (three_of_front hfront)]
              simp only [if_neg hleave]
              exact exact_pure ⟨by simp, fun _ => by simp⟩ ⟨h, rfl⟩
          · refine exact_bind_of_not_meets hmeets fun henough => ?_
            -- the command is the one that looks further, and ends the chunk
            rw [fileTail_wont hwont fun hfront => absurd hfront.length_le (Nat.not_le.2 hshort)]
              at henough
            have hsix := henough.2 (by
              rw [hcommand.1, hwont, hcommand.2.1]
              exact List.prefix_append [telnetIac, telnetWont, 0] _)
            simp only [List.length_cons] at hsix
            omega
        · have hrest := ih r' rest' h' (by simp only [List.length_cons] at hfuel; omega)
          rw [hstate'] at hrest
          rw [fileTail_next hcommand hwont]
          simp only [if_neg hwont]
          exact exact_bind hskip hmeets' hrest
      · rw [fileTail_of_not hcommand]
        simp only [if_neg hcommand]
        refine exact_pure ⟨by simp, fun hfront => ?_⟩ ⟨h, rfl⟩
        obtain ⟨hiac, hopt, hval⟩ := three_of_front hfront
        exact absurd ⟨hiac, hval, hopt ▸ by decide⟩ hcommand
    · refine exact_bind_of_not_meets hmeets fun henough => ?_
      rw [(tail_of_short hshort r.state).2] at henough
      exact absurd henough.1 (Nat.not_le.2 hshort)

/-! ## The shell -/

/-- Every character but Escape is handled without a look at the next. -/
theorem shellKey_plain (ptr len : ℕ) {ch : UInt8} (h : ch ≠ 0x1b) :
    ∃ keys, c.shellKey ptr len ch = pure (keys, ptr, len) := by
  unfold Chunk.shellKey
  split_ifs
  · exact ⟨_, rfl⟩
  · exact ⟨_, rfl⟩
  · exact ⟨_, rfl⟩
  · exact ⟨_, rfl⟩
  · exact ⟨_, rfl⟩
  · exact ⟨_, rfl⟩

theorem shellKey_escape {ptr len : ℕ} : c.shellKey ptr len 0x1b = (c.load (ptr + 1) >>= fun next =>
    if next = 0x5b then c.load (ptr + 2) >>= fun arrow =>
      pure (if arrow = 0x41 then [.history false] else if arrow = 0x42 then [.history true] else [],
        ptr + 2, (len + 2 ^ 8 - 2) % 2 ^ 8)
    else pure ([], ptr, len)) := rfl

/-- What a key leaves: the pointer in front of `rest'`, of which `len` is
the length but for the step over the key. -/
structure Leaves (c : Chunk) (ptr len : ℕ) (rest' : List UInt8) : Prop where
  drop : c.data.drop (ptr + 1) = rest'
  len_eq : (len + 2 ^ 8 - 1) % 2 ^ 8 = rest'.length

/-- An Escape at the end of the chunk, `ESC [` there, an arrow key, and an
Escape in front of another character. -/
theorem shellKey_escape_cases {ptr : ℕ} {rest : List UInt8} (htail : c.data.drop (ptr + 1) = rest)
    (hlen : rest.length + 1 ≤ 255) :
    ¬Meets (Access.Inside c.data.length) (c.shellKey ptr (rest.length + 1) 0x1b) ∧
        ¬ArrowsWhole (0x1b :: rest) ∨
      ∃ keys ptr' len' rest',
        (c.shellKey ptr (rest.length + 1) 0x1b).answer = some (keys, ptr', len') ∧
        Meets (Access.Inside c.data.length) (c.shellKey ptr (rest.length + 1) 0x1b) ∧
        Leaves c ptr' len' rest' ∧ rest'.length ≤ rest.length ∧
        (ArrowsWhole (0x1b :: rest) ↔ ArrowsWhole rest') := by
  have hend := congrArg List.length htail
  rw [List.length_drop] at hend
  rw [shellKey_escape]
  cases rest with
  | nil =>
    -- `ptr[1]` is behind the chunk
    refine .inl ⟨fun hmeets => ?_, id⟩
    have hread := meets_load.1 (meets_bind.1 hmeets).1
    rw [List.length_nil] at hend
    omega
  | cons next rest =>
    obtain ⟨hptr₁, hnext, htail₁⟩ := c.byte_of_drop htail
    have hanswer : (c.load (ptr + 1)).answer = some next := congrArg some hnext
    rw [answer_bind_of_answer hanswer, meets_bind_of_answer hanswer, meets_load]
    by_cases harrow : next = 0x5b
    · subst harrow
      rw [if_pos rfl]
      cases rest with
      | nil =>
        -- and here `ptr[2]` is
        refine .inl ⟨fun hmeets => ?_, id⟩
        have hread := meets_load.1 (meets_bind.1 hmeets.2).1
        rw [List.length_singleton] at hend
        omega
      | cons arrow rest =>
        obtain ⟨hptr₂, -, htail₂⟩ := c.byte_of_drop htail₁
        refine .inr ⟨_, ptr + 2, _, rest, rfl, ⟨hptr₁, ?_⟩, ⟨htail₂, ?_⟩, ?_, Iff.rfl⟩
        · rw [meets_bind_of_answer rfl, meets_load]
          exact ⟨hptr₂, meets_pure _⟩
        · simp only [List.length_cons] at hlen ⊢
          omega
        · simp only [List.length_cons]
          omega
    · rw [if_neg harrow]
      refine .inr ⟨[], ptr, _, next :: rest, rfl, ⟨hptr₁, meets_pure _⟩, ⟨htail, ?_⟩, le_rfl,
        arrowsWhole_escape harrow⟩
      simp only [List.length_cons] at hlen ⊢
      omega

/-- **A key** stays inside where it is not cut by the end of the chunk. -/
theorem shellKey_cases {ptr : ℕ} {ch : UInt8} {rest : List UInt8} (hnul : ch ≠ 0)
    (htail : c.data.drop (ptr + 1) = rest) (hlen : rest.length + 1 ≤ 255) :
    ¬Meets (Access.Inside c.data.length) (c.shellKey ptr (rest.length + 1) ch) ∧
        ¬ArrowsWhole (ch :: rest) ∨
      ∃ keys ptr' len' rest',
        (c.shellKey ptr (rest.length + 1) ch).answer = some (keys, ptr', len') ∧
        Meets (Access.Inside c.data.length) (c.shellKey ptr (rest.length + 1) ch) ∧
        Leaves c ptr' len' rest' ∧ rest'.length ≤ rest.length ∧
        (ArrowsWhole (ch :: rest) ↔ ArrowsWhole rest') := by
  by_cases hesc : ch = 0x1b
  · rw [hesc]
    exact shellKey_escape_cases htail hlen
  · obtain ⟨keys, hkeys⟩ := shellKey_plain (c := c) ptr (rest.length + 1) hesc
    rw [hkeys]
    refine .inr ⟨keys, ptr, rest.length + 1, rest, rfl, meets_pure _, ⟨htail, ?_⟩, le_rfl,
      arrowsWhole_plain hnul hesc⟩
    omega

/-- **The shell stays inside** exactly where no arrow key is cut: behind the
first byte of one it reads two more without a look at the length. -/
theorem shellInput_exact : ∀ (fuel : ℕ) (rest : List UInt8) (ptr : ℕ),
    c.data.drop ptr = rest → rest.length < fuel → rest.length ≤ 255 →
    Exact (Access.Inside c.data.length) (ArrowsWhole rest) (fun _ => True)
      (c.shellInput fuel ptr rest.length) := by
  intro fuel
  induction fuel with
  | zero =>
    intro rest ptr _ hfuel
    omega
  | succ fuel ih =>
    intro rest ptr hdrop hfuel hlen
    rw [Chunk.shellInput]
    cases rest with
    | nil => exact exact_pure trivial trivial
    | cons ch rest =>
      obtain ⟨hptr, hch, htail⟩ := c.byte_of_drop hdrop
      simp only [List.length_cons] at hfuel hlen ⊢
      rw [if_neg (by simp)]
      refine exact_bind (congrArg some hch) (meets_load.2 hptr) ?_
      by_cases hnul : ch = 0
      · simp only [if_pos hnul]
        exact exact_pure (hnul ▸ arrowsWhole_nul rest) trivial
      simp only [if_neg hnul]
      obtain ⟨hcut, hnot⟩ | ⟨keys, ptr', len', rest', hkey, hmeets, hleaves, hle, hiff⟩ :=
        shellKey_cases hnul htail hlen
      · exact exact_bind_of_not_meets hcut hnot
      · rw [hiff]
        refine exact_bind hkey hmeets ?_
        obtain ⟨hinside, hanswer⟩ := ih rest' (ptr' + 1) hleaves.drop (by omega) (by omega)
        simp only [hleaves.len_eq]
        refine ⟨?_, fun hwhole => ?_⟩
        · rw [meets_bind, hinside]
          exact and_iff_left fun _ _ => meets_pure _
        · obtain ⟨_, hanswer, -⟩ := hanswer hwhole
          exact ⟨_, answer_bind_of_answer hanswer, trivial⟩

/-! ## A chunk -/

theorem telnetCheckOption_exact (hlen : c.data.length < 2 ^ 16) (h : Stands c r c.data) :
    Exact (Access.Inside c.data.length)
      (3 ≤ (tailOf c.data r.state).1.length ∧ (r.state = .binTran →
        [telnetIac, telnetWont, 0] <+: (tailOf c.data r.state).1 →
          6 ≤ (tailOf c.data r.state).1.length))
      (fun r' => Stands c r' (tailOf c.data r.state).1 ∧ r'.state = (tailOf c.data r.state).2)
      (c.telnetCheckOption r) := by
  unfold Chunk.telnetCheckOption
  cases hstate : r.state with
  | normal =>
    have hexact := optionsNormal_exact hlen (c.data.length + 1) r c.data h (by omega)
    rw [hstate] at hexact
    simpa [tailOf] using hexact
  | binTran =>
    have hexact := optionsBin_exact hlen (c.data.length + 1) r c.data h (by omega)
    rw [hstate] at hexact
    simpa [tailOf, Enough] using hexact

/-- Of the file receiver nothing is asked here: its reads are events of
their own. -/
theorem telnetRecvFile_inside (n ptr len : ℕ) (file : TelnetFile) :
    (c.telnetRecvFile ptr len file).Meets (Access.Inside n) := by
  refine meets_bind.2 ⟨copyFile_meets (fun _ _ => trivial) _ _ _ _, fun buf _ => ?_⟩
  refine meets_bind.2 ⟨storeWords_meets (fun _ _ => trivial) _ _ _, fun addr _ => ?_⟩
  exact meets_pure _

/-- **A chunk is handled inside** exactly where it is whole: every byte
the options and the shell read is one of its bytes, `buflen` does not
wrap, and the shell is given the length that is left. -/
theorem handle_inside_iff (c : Chunk) (r : Recv) (hlen : c.data.length < 2 ^ 16) :
    (c.handle r).Meets (Access.Inside c.data.length) ∧ (c.handle r).answer.isSome = true ↔
      Whole c.data r.state := by
  set r₀ : Recv := { r with ptr := 0, buflen := c.data.length % 2 ^ 16 } with hr₀
  have hstands : Stands c r₀ c.data := ⟨rfl, Nat.zero_le _, Nat.mod_eq_of_lt hlen⟩
  obtain ⟨hmeets, hanswer⟩ := telnetCheckOption_exact hlen hstands
  have hstate : r₀.state = r.state := rfl
  rw [hstate] at hmeets hanswer
  by_cases hgood : 3 ≤ (tailOf c.data r.state).1.length ∧ (r.state = .binTran →
      [telnetIac, telnetWont, 0] <+: (tailOf c.data r.state).1 →
        6 ≤ (tailOf c.data r.state).1.length)
  swap
  · exact iff_of_false (fun h => hgood (hmeets.1 (meets_bind.1 h.1).1))
      fun h => hgood ⟨h.three, h.six⟩
  obtain ⟨r', hr', h', hstate'⟩ := hanswer hgood
  have hadd := h'.add_eq
  have hbuflen := h'.buflen
  unfold Chunk.handle
  rw [meets_bind_of_answer hr', answer_bind_of_answer hr', and_iff_right (hmeets.2 hgood),
    if_neg (by omega)]
  cases htail : (tailOf c.data r.state).2 with
  | binTran =>
    rw [htail] at hstate'
    rw [hstate']
    obtain ⟨file, hfile, -⟩ := telnetRecvFile_answer (c := c) r'.file
      (show r'.ptr + r'.buflen = c.data.length by omega)
    refine iff_of_true ⟨?_, ?_⟩ ⟨hgood.1, hgood.2, by simp [htail], by simp [htail]⟩
    · exact (meets_bind_of_answer hfile).2 ⟨telnetRecvFile_inside _ _ _ _, meets_pure _⟩
    · rw [answer_bind_of_answer hfile]
      rfl
  | normal =>
    rw [htail] at hstate'
    rw [hstate']
    have hevent : (Chunk.event (.shell (r'.buflen % 2 ^ 8) r'.ptr)).Meets
        (Access.Inside c.data.length) ↔ (tailOf c.data r.state).1.length ≤ 255 := by
      refine List.forall_mem_singleton.trans ?_
      unfold Access.Inside
      omega
    by_cases hshort : (tailOf c.data r.state).1.length ≤ 255
    swap
    · exact iff_of_false (fun h => hshort (hevent.1 (meets_bind.1 h.1).1))
        fun h => hshort (h.short htail)
    obtain ⟨hmeets', hanswer'⟩ := shellInput_exact (c.data.length + 1) _ r'.ptr h'.drop
      (by omega) hshort
    show (Chunk.event _ >>= fun _ => _).Meets _ ∧ (Chunk.event _ >>= fun _ => _).answer.isSome = _ ↔ _
    rw [meets_bind_of_answer rfl, and_iff_right (hevent.2 hshort), answer_bind_of_answer rfl,
      show r'.buflen % 2 ^ 8 = (tailOf c.data r.state).1.length by omega]
    constructor
    · rintro ⟨h, -⟩
      exact ⟨hgood.1, hgood.2, fun _ => hshort, fun _ => hmeets'.1 (meets_bind.1 h).1⟩
    · intro h
      obtain ⟨keys, hkeys, -⟩ := hanswer' (h.arrows htail)
      rw [answer_bind_of_answer hkeys]
      exact ⟨(meets_bind_of_answer hkeys).2 ⟨hmeets'.2 (h.arrows htail), meets_pure _⟩, rfl⟩

/-- An answer to an option, and then a word and Enter. -/
theorem handle_inside_word :
    let c : Chunk := ⟨[255, 253, 1, 108, 115, 13], fun _ => 0⟩
    (c.handle .start).Meets (Access.Inside 6) ∧ (c.handle .start).answer.isSome = true := by
  refine (handle_inside_iff ⟨[255, 253, 1, 108, 115, 13], fun _ => 0⟩ .start (by decide)).2 ?_
  refine ⟨by decide, fun hbin => ?_, fun _ => by decide, fun _ => ?_⟩
  · cases hbin
  · simp [tailOf, textTail, ArrowsWhole, Recv.start]

/-- **A chunk of one letter**, as a client sends it that sends each key:
two bytes behind it are read. -/
theorem one_letter : ∃ c : Chunk, 1 ≤ c.data.length ∧ c.data.length ≤ tcpMss ∧
    ¬ (c.handle .start).Meets (Access.Inside c.data.length) := by
  refine ⟨⟨[65], fun _ => 0⟩, by decide, by decide, fun hmeets => ?_⟩
  have hread : Access.Inside 1 (.load 1) := hmeets _ (by decide +kernel)
  exact absurd hread (lt_irrefl 1)

end Shell

end SlipBoard
