import SlipBoard.Ebi.Model.Console
import SlipBoard.Ebi.Returns
import SlipBoard.Microrl.Commands
import SlipBoard.Microrl.Execute
/-!
# Register access — the arguments it reads

A program of the console is given the tokens of the line. `getopt` goes
on until an entry is a null pointer, which the editor does not store, so
what keeps `main_ebi_rw` inside its arguments is the line: a word that is
no option, `--`, or an option it stops at (`readsOnlyArguments_iff`). The
words `time` in front of it only move the first argument.
-/

namespace SlipBoard

namespace Ebi

open Microrl Traced Transition

variable {cfg : Config} {c : Commands Handler}

/-! ## What it reads -/

/-- An entry that is read is one of the first `N`. -/
def Inside (N : ℕ) (e : Event) : Prop := ∀ k, e = .argv k → k < N

theorem quiet_inside (N : ℕ) : Quiet (Inside N) := by
  refine ⟨⟨fun o k h => ?_⟩, fun k h => ?_⟩
  · cases h
  · cases h

theorem meets_inside {α : Type*} {N : ℕ} {x : Traced Event α} :
    Meets (Inside N) x ↔ ∀ k, Event.argv k ∈ x.log → k < N :=
  ⟨fun h k hk => h _ hk k rfl, fun h _ he k heq => h k (heq ▸ he)⟩

/-- Behind the options nothing outside the words is read. -/
theorem build_inside {o : Options} {k N : ℕ} {argv : List (Option (List UInt8))}
    (ho : o.Valid cfg) :
    Meets (Inside N) (build cfg o ((N : ℤ) - k) argv k) := by
  refine ((quiet_inside N).build ho ?_ ?_ ?_ ?_).1
  · intro j h
    cases h
  · rintro j hk hj _ ⟨rfl⟩
    omega
  · intro n _ j h
    cases h
  · intro q _ _ n _ j h
    cases h

/-- **`main_ebi_rw` reads only its arguments** unless the words run out:
every entry of `argv` that it reads is one of those it is given. -/
theorem mainEbiRw_inside_iff (w : List UInt8) (words : List (List UInt8)) :
    Meets (Inside (words.length + 1)) (mainEbiRw cfg (w :: words).length ((w :: words).map some)) ↔
      ¬ RunsPast cfg words := by
  obtain ⟨name, x, hread, hends⟩ := readOptions_ends cfg false w words
  have hvector : vector false (w :: words) = (w :: words).map some := List.append_nil _
  rw [hvector] at hread
  have hzero : Meets (Inside (words.length + 1)) (emit (.argv 0) : Traced Event Unit) := by
    rintro e he k rfl
    obtain rfl : k = 0 := by simpa [emit] using he
    omega
  have hoptions : Meets (Inside (words.length + 1)) (readOptions cfg ((w :: words).map some)) ↔
      ¬ RunsPast cfg words := by
    rw [hread, meets_bind_of_answer (answer_emit _), and_iff_right hzero, meets_inside,
      hends.reads_iff]
    rfl
  rw [← hoptions]
  refine ⟨fun h => (meets_bind.1 (meets_bind.1 h).1).1,
    fun h => meets_bind.2 ⟨meets_bind.2 ⟨h, ?_⟩, ?_⟩⟩
  · rintro (_ | ⟨o, k⟩) hr
    · exact meets_pure _
    · exact build_inside (N := words.length + 1) (readOptions_valid hr)
  · rintro (_ | ⟨o, q⟩) hq
    · exact meets_pure _
    · refine (quiet_inside _).toPrints.finish ?_
      intro j h
      cases h

/-! ## The table -/

/-- What `taskMicroRl` registers: the two defaults and the six commands of
the board, in the order of the table. -/
def programs : List (CmdStruct Handler) :=
  defaults .printHelp .cmdClear ++
    [⟨ascii "aboutTask", .printAboutyTask⟩, ⟨ascii "TelNetAbonentCon", .printAbonentConnetcNow⟩,
      ⟨ascii "CPU_Idle", .printCpuFree⟩, ⟨ascii "CPU_Gra", .printMasCpu⟩,
      ⟨ascii "ebi_rv", .ebiRvCmd⟩, ⟨ascii "time", .timeCmd⟩]

theorem registered_taskMicroRl : ∃ c, taskMicroRl = some c ∧ Registered c programs :=
  registered_register programs

theorem ranOf_programs {name : List UInt8} {execCmd : Handler} (argv : List (List UInt8))
    (h : (programs.find? fun e => name = e.cmdName).map CmdStruct.execCmd = some execCmd) :
    ranOf programs name argv = .handler execCmd argv := by
  obtain ⟨e, hfind, rfl⟩ := Option.map_eq_some_iff.1 h
  rw [ranOf, hfind]

theorem execute_programs {execCmd : Handler} (hreg : Registered c programs) (name : List UInt8)
    (args : List (List UInt8))
    (h : (programs.find? fun e => name = e.cmdName).map CmdStruct.execCmd = some execCmd) :
    c.execute .printHelp .cmdClear (name :: args) = some (c, .handler execCmd (name :: args)) := by
  rw [execute_of_registered hreg (List.cons_ne_nil _ _), ranOf_programs _ h]

/-- **Any number of `time`** in front of `ebi_rv` leaves it its words: each
takes the first argument away, and the last one runs the command. -/
theorem execute_time (hreg : Registered c programs) (n : ℕ) (args : List (List UInt8)) :
    execute cfg c (n + (args.length + 1))
      (List.replicate n (ascii "time") ++ ascii "ebi_rv" :: args) = some (args.length + 1,
        mainEbiRw cfg (ascii "ebi_rv" :: args).length ((ascii "ebi_rv" :: args).map some)) := by
  induction n with
  | zero =>
    have hebi : c.execute .printHelp .cmdClear (ascii "ebi_rv" :: args) =
        some (c, .handler .ebiRvCmd (ascii "ebi_rv" :: args)) :=
      execute_programs hreg _ args (by decide +kernel)
    rw [List.replicate_zero, List.nil_append, execute, hebi]
    simp
  | succ n ih =>
    have htime : ∀ rest : List (List UInt8), c.execute .printHelp .cmdClear (ascii "time" :: rest) =
        some (c, .handler .timeCmd (ascii "time" :: rest)) :=
      fun rest => execute_programs hreg _ rest (by decide +kernel)
    have hargc : n + 1 + (args.length + 1) ≠ 1 := by omega
    have hsub : n + 1 + (args.length + 1) - 1 = n + (args.length + 1) := by omega
    rw [List.replicate_succ, List.cons_append, execute, htime]
    simp only [Option.bind_eq_bind, Option.bind_some, if_neg hargc, hsub]
    exact ih

/-! ## From the line on -/

theorem mapM_of_map {α β : Type*} {f : α → Option β} {l : List α} {ws : List β}
    (h : l.map f = ws.map some) : l.mapM f = some ws := by
  induction l generalizing ws with
  | nil =>
    rw [List.map_nil, eq_comm, List.map_eq_nil_iff] at h
    rw [h, List.mapM_nil]
    rfl
  | cons a l ih =>
    obtain ⟨w, ws, rfl, hw, hws⟩ := List.map_eq_cons_iff.1 (h.symm.trans (List.map_cons ..))
    rw [List.mapM_cons, ← hw, ih hws.symm]
    rfl

/-- Enter counts the tokens it passes, so `argc` is the length of `argv`. -/
theorem argc_of_enter {s s' : MicrorlT} {held : List (List UInt8)} {k : Call}
    (hs : Sane AnyByte s held) (hkey : s.newLineHandler = some s')
    (hcall : s'.calls = s.calls ++ [k]) : k.argc = k.argv.length := by
  obtain ⟨t, -, hkey', -, -, -, -, hcalls⟩ := newLineHandler_eq admits_anyByte hs
  obtain rfl := Option.some.inj (hkey.symm.trans hkey')
  rw [hcall, List.append_cancel_left_eq, executed] at hcalls
  split at hcalls
  · rw [(List.cons.inj hcalls).1]
  · simp at hcalls

/-- **What Enter comes to** where the first word behind `time` is
`ebi_rv`. -/
theorem runCall_of_enter (cfg : Config) (commands : Option (List (List UInt8))) (echo : Bool)
    {bs : List UInt8} {s s' : MicrorlT} {k : Call} {n : ℕ} {args : List (List UInt8)}
    (hrun : run MicrorlT.microrlInsertChar (.start commands echo) bs = some s)
    (hkey : s.newLineHandler = some s') (hcall : s'.calls = s.calls ++ [k])
    (hline : k.argv.map k.cmdline.str =
      (List.replicate n (ascii "time") ++ ascii "ebi_rv" :: args).map some) :
    runCall cfg k = some (args.length + 1,
      mainEbiRw cfg (ascii "ebi_rv" :: args).length ((ascii "ebi_rv" :: args).map some)) := by
  have hstart : Sane AnyByte (.start commands echo) [] :=
    (sane_microrlInit admits_anyByte).with_settings _ (show 4 < 10000 by omega) echo true commands
  obtain ⟨held, hs, -⟩ := sane_of_run admits_anyByte hstart (namesAdmitted_anyByte _) hrun
  have hlength : k.argv.length = n + (args.length + 1) := by
    simpa using congrArg List.length hline
  obtain ⟨c, hc, hreg⟩ := registered_taskMicroRl
  simp only [runCall, hc, mapM_of_map hline, Option.bind_eq_bind, Option.bind_some]
  rw [argc_of_enter hs hkey hcall, hlength]
  exact execute_time hreg n args

/-- **`main_ebi_rw` and `getopt` read only the arguments they are given**,
for every line that the editor runs the command with, behind any number of
time words, exactly where the words do not run out while `getopt` still
looks for one, or for a value (`RunsPast`). -/
theorem readsOnlyArguments_iff (cfg : Config) (commands : Option (List (List UInt8))) (echo : Bool)
    {bs : List UInt8} {s s' : MicrorlT} {k : Call} {n : ℕ} {args : List (List UInt8)}
    (hrun : run MicrorlT.microrlInsertChar (.start commands echo) bs = some s)
    (hkey : s.newLineHandler = some s') (hcall : s'.calls = s.calls ++ [k])
    (hline : k.argv.map k.cmdline.str =
      (List.replicate n (ascii "time") ++ ascii "ebi_rv" :: args).map some) :
    ∃ argc x, runCall cfg k = some (argc, x) ∧
      ((∀ j, Event.argv j ∈ x.log → j < argc) ↔ ¬ RunsPast cfg args) :=
  ⟨_, _, runCall_of_enter cfg commands echo hrun hkey hcall hline,
    meets_inside.symm.trans (mainEbiRw_inside_iff (ascii "ebi_rv") args)⟩

/-- A line that is typed, and Enter: the call that is made of it, where the
line has these words. -/
theorem typed_enter (line : List UInt8) (words : List (List UInt8))
    (hcalls : (run MicrorlT.microrlInsertChar (.start none false) line).map
      (fun s => s.calls.length) = some 0)
    (henter : (run MicrorlT.microrlInsertChar (.start none false) line).map (fun s =>
      s.newLineHandler.map fun s' => s'.calls.map fun k => k.argv.map k.cmdline.str) =
        some (some [words.map some])) :
    ∃ s s' k, run MicrorlT.microrlInsertChar (.start none false) line = some s ∧
      s.newLineHandler = some s' ∧ s'.calls = s.calls ++ [k] ∧
      k.argv.map k.cmdline.str = words.map some := by
  obtain ⟨s, hrun, hzero⟩ := Option.map_eq_some_iff.1 hcalls
  rw [hrun, Option.map_some, Option.some.injEq] at henter
  obtain ⟨s', hkey, hlines⟩ := Option.map_eq_some_iff.1 henter
  obtain ⟨k, hk, hwords⟩ := List.map_eq_singleton_iff.1 hlines
  refine ⟨s, s', k, hrun, hkey, ?_, hwords⟩
  rw [List.length_eq_zero_iff.1 hzero, hk, List.nil_append]

/-- "time ebi_rv 1 4" keeps to its arguments, which begin behind the word
`time`. -/
theorem readsOnlyArguments_iff_time : ∃ s s' k argc x,
    run MicrorlT.microrlInsertChar (.start none false) (ascii "time ebi_rv 1 4") = some s ∧
    s.newLineHandler = some s' ∧ s'.calls = s.calls ++ [k] ∧
    k.argv.map k.cmdline.str = [ascii "time", ascii "ebi_rv", ascii "1", ascii "4"].map some ∧
    runCall .spi k = some (argc, x) ∧ ∀ j, Event.argv j ∈ x.log → j < argc := by
  obtain ⟨s, s', k, hrun, hkey, hcall, hwords⟩ := typed_enter (ascii "time ebi_rv 1 4")
    [ascii "time", ascii "ebi_rv", ascii "1", ascii "4"] (by decide +kernel) (by decide +kernel)
  have hstop : ¬ RunsPast .spi [ascii "1", ascii "4"] := by
    rintro ⟨-, hrest⟩
    exact hrest [ascii "1", ascii "4"] (by decide +kernel)
  obtain ⟨argc, x, hx, hiff⟩ :=
    readsOnlyArguments_iff .spi none false (n := 1) hrun hkey hcall hwords
  exact ⟨s, s', k, argc, x, hrun, hkey, hcall, hwords, hx, hiff.2 hstop⟩

/-- **`ebi_rv` alone** has one argument, and `getopt` reads the second entry
of `tkn_arr`, which is not of this line. -/
theorem alone_reads_past : ∃ s s' k x,
    run MicrorlT.microrlInsertChar (.start none false) (ascii "ebi_rv") = some s ∧
    s.newLineHandler = some s' ∧ s'.calls = s.calls ++ [k] ∧
    k.argv.map k.cmdline.str = [ascii "ebi_rv"].map some ∧
    runCall .spi k = some (1, x) ∧ Event.argv 1 ∈ x.log := by
  obtain ⟨s, s', k, hrun, hkey, hcall, hwords⟩ := typed_enter (ascii "ebi_rv")
    [ascii "ebi_rv"] (by decide +kernel) (by decide +kernel)
  refine ⟨s, s', k, _, hrun, hkey, hcall, hwords,
    runCall_of_enter .spi none false (n := 0) hrun hkey hcall hwords, ?_⟩
  decide +kernel

end Ebi

end SlipBoard
