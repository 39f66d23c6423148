import SlipBoard.Shell.Register
import Mathlib.Data.List.GetD
import Mathlib.Data.List.TakeWhile
/-!
# Shell — the command a line runs

`shell_parse` sums over the first word of the line, as `_shell_register`
does over a name (`wordSums_spec`), so that what it runs is the first
command registered under the ID of that word (`shellParse_spec`). The
names are not compared: another word with the same ID runs the command
too, and a command registered later under the ID is never run.
-/

namespace SlipBoard

namespace Shell

open Transition

variable {sh : Commands} {regs : List Registration} {fuel : ℕ} {line text : List UInt8}
variable {b : Block commandlineMaxLen} {shellbuf : ShellBuf}

/-- The first word of a line, which a NUL ends as well. -/
def firstWord (line : List UInt8) : List UInt8 :=
  (line.dropWhile (· = 32)).takeWhile fun c => c ≠ 0 ∧ c ≠ 32

/-- The buffer holds the line, with a NUL behind it. -/
structure Typed (shellbuf : ShellBuf) (line : List UInt8) : Prop where
  index_eq : shellbuf.index = line.length
  short : line.length < commandlineMaxLen
  text : shellbuf.bufmem.slice 0 line.length = line
  nul : shellbuf.bufmem.byte line.length = 0

/-! ## The loops -/

/-- The characters that are read from a place on, up to a NUL. -/
def Reads (b : Block commandlineMaxLen) : ℕ → List UInt8 → Prop
  | inputStr, [] => b.load inputStr = some 0
  | inputStr, c :: text => b.load inputStr = some c ∧ Reads b (inputStr + 1) text

theorem Reads.load {inputStr : ℕ} (h : Reads b inputStr text) :
    b.load inputStr = some (text.headD 0) := by
  cases text with
  | nil => exact h
  | cons c text => exact h.1

theorem reads_of_slice : ∀ {text : List UInt8} {inputStr : ℕ},
    b.slice inputStr text.length = text → b.byte (inputStr + text.length) = 0 →
    inputStr + text.length < commandlineMaxLen → Reads b inputStr text := by
  intro text
  induction text with
  | nil =>
    intro inputStr _ hnul hshort
    exact (Block.load_of_lt hshort).trans (congrArg some hnul)
  | cons c text ih =>
    intro inputStr htext hnul hshort
    rw [List.length_cons, Nat.add_comm text.length, Block.slice_add] at htext
    obtain ⟨hc, hrest⟩ := List.cons_eq_cons.1 htext
    rw [List.length_cons, Nat.add_comm text.length, ← Nat.add_assoc] at hnul hshort
    refine ⟨?_, ih hrest hnul hshort⟩
    rw [Block.load_of_lt (by omega)]
    exact congrArg some hc

theorem Typed.reads (h : Typed shellbuf line) : Reads shellbuf.bufmem 0 line := by
  refine reads_of_slice h.text ?_ ?_
  · rw [Nat.zero_add]
    exact h.nul
  · rw [Nat.zero_add]
    exact h.short

/-- **The spaces in front.** What is left of `input_len` is what is left of
the line. -/
theorem skipSpaces_spec : ∀ {line : List UInt8} {rounds inputStr : ℕ}, Reads b inputStr line →
    line.length < rounds → ∃ k, skipSpaces b rounds inputStr line.length =
      some (k, ((line.dropWhile (· = 32)).length : ℤ)) ∧
        Reads b k (line.dropWhile (· = 32)) := by
  intro line
  induction line with
  | nil =>
    intro rounds inputStr h hrounds
    obtain ⟨rounds, rfl⟩ : ∃ n, rounds = n + 1 := ⟨rounds - 1, by omega⟩
    refine ⟨inputStr, ?_, h⟩
    rw [skipSpaces, h.load]
    rfl
  | cons c line ih =>
    intro rounds inputStr h hrounds
    rw [List.length_cons] at hrounds
    obtain ⟨rounds, rfl⟩ : ∃ n, rounds = n + 1 := ⟨rounds - 1, by omega⟩
    rw [skipSpaces, h.load, Option.bind_eq_bind, Option.bind_some, List.headD_cons]
    by_cases hc : c = 32
    · rw [if_pos hc, List.dropWhile_cons_of_pos (by simpa using hc), List.length_cons,
        Int.natCast_succ, Int.add_sub_cancel]
      exact ih h.2 (by omega)
    · rw [if_neg hc, List.dropWhile_cons_of_neg (by simpa using hc)]
      exact ⟨inputStr, rfl, h⟩

/-- **The two loops agree**: what `shell_parse` sums over is the first word,
up to a space or the NUL. -/
theorem wordSums_spec : ∀ {text : List UInt8} {rounds inputStr : ℕ} {a : Sums},
    Reads b inputStr text → text.length < rounds → wordSums b rounds inputStr a =
      some (nameSums (text.takeWhile fun c => c ≠ 0 ∧ c ≠ 32) a) := by
  intro text
  induction text with
  | nil =>
    intro rounds inputStr a h hrounds
    obtain ⟨rounds, rfl⟩ : ∃ n, rounds = n + 1 := ⟨rounds - 1, by omega⟩
    rw [wordSums, h.load]
    rfl
  | cons c text ih =>
    intro rounds inputStr a h hrounds
    rw [List.length_cons] at hrounds
    obtain ⟨rounds, rfl⟩ : ∃ n, rounds = n + 1 := ⟨rounds - 1, by omega⟩
    rw [wordSums, h.load, Option.bind_eq_bind, Option.bind_some, List.headD_cons]
    by_cases hc : c ≠ 0 ∧ c ≠ 32
    · rw [if_pos hc, List.takeWhile_cons_of_pos (by simpa using hc), nameSums, if_neg hc.1]
      exact ih h.2 (by omega)
    · rw [if_neg hc, List.takeWhile_cons_of_neg (by simpa using hc)]
      rfl

/-! ## Records -/

/-- The history with a line in its row `write`, and both of its rows set to
the one behind. -/
def History.recorded (history : History) (line : List UInt8) : History :=
  ⟨Function.update history.buf history.write
      ((history.buf history.write).overwrite 0 (line ++ [0])),
    history.write + 1, history.write + 1⟩

theorem History.buf_recorded (history : History) (line : List UInt8) :
    (history.recorded line).buf history.write =
      (history.buf history.write).overwrite 0 (line ++ [0]) := Function.update_self ..

/-- **A line fits a row** of the history, with a NUL behind it. -/
theorem History.record_spec (history : History) (h : Typed shellbuf line) :
    history.record shellbuf = some (history.recorded line, history.write) := by
  have hindex := h.index_eq
  have hshort := h.short
  have hread : shellbuf.bufmem.read 0 shellbuf.index = some line := by
    rw [Block.read_of_le (by omega), hindex, h.text]
  have hwrite : (history.buf history.write).write 0 line =
      some ((history.buf history.write).overwrite 0 line) := Block.write_of_le (by omega)
  unfold History.record History.recorded
  rw [hread, Option.bind_eq_bind, Option.bind_some, hwrite, Option.bind_eq_bind, Option.bind_some,
    Block.store_of_lt (by omega), Block.set_eq_overwrite, Block.overwrite_overwrite (by omega)]
  rfl

/-! ## The command -/

/-- The command that a line is answered by: the one registered under the ID
of its first word, where it has a word. -/
def answering (regs : List Registration) (line : List UInt8) : Option Registration :=
  if firstWord line = [] then none else firstWith regs (nameID (firstWord line))

/-- The outcome is a call of the command's `Func`, whatever its record and
argument are. -/
def Calls (out : Outcome) (r : Registration) : Prop :=
  ∃ record arg, out = .call r.newcmd r.cmdFunc record arg

/-- Behind the spaces stands the first word, or a NUL. -/
theorem firstWord_cases (line : List UInt8) :
    firstWord line = [] ∧ (line.dropWhile (· = 32)).headD 0 = 0 ∨
      ∃ c word text, firstWord line = c :: word ∧ line.dropWhile (· = 32) = c :: text ∧ c ≠ 0 := by
  have hhead := List.head?_dropWhile_not (· = 32) line
  unfold firstWord
  cases hrest : line.dropWhile (· = 32) with
  | nil => exact .inl ⟨rfl, rfl⟩
  | cons c text =>
    rw [hrest] at hhead
    have hspace : c ≠ 32 := of_decide_eq_false hhead
    by_cases hc : c = 0
    · exact .inl ⟨List.takeWhile_cons_of_neg (by simp [hc]), hc⟩
    · exact .inr ⟨c, _, text, List.takeWhile_cons_of_pos (by simp [hc, hspace]), rfl, hc⟩

/-- What a line does whose first word is not empty. -/
def answer (sh : Commands) (regs : List Registration) (shellbuf : ShellBuf) (line : List UInt8) :
    Commands × Outcome :=
  match firstWith regs (nameID (firstWord line)) with
  | some q => ({ sh with history := sh.history.recorded line },
      .call q.newcmd q.cmdFunc sh.history.write ((nameID q.cmdName >>> 21) &&& 0x001F).toNat)
  | none =>
    (sh, .noReply ([13, 10, 13, 10, 9] ++ ascii "no reply:" ++ shellbuf.bufmem.cstr 0 ++ [13, 10]))

/-- **`shell_parse` of a line with a word** records the line, empties it,
and looks for the ID of the word. -/
theorem shellParse_of_word (h : Registered regs sh) (hfuel : regs.length < fuel)
    (hline : Typed shellbuf line) (hword : firstWord line ≠ []) :
    shellParse fuel sh shellbuf = some ((answer sh regs shellbuf line).1,
      { shellbuf with index := 0 }, (answer sh regs shellbuf line).2) := by
  have hshort := hline.short
  have hroom : line.length < commandlineMaxLen + 1 := by omega
  obtain ⟨k, hskip, hreads⟩ := skipSpaces_spec hline.reads hroom
  have hload := hreads.load
  obtain ⟨hempty, -⟩ | ⟨c, word, text, hcons, hrest, hc⟩ := firstWord_cases line
  · exact absurd hempty hword
  have hlen : (line.dropWhile (· = 32)).length < commandlineMaxLen + 1 := by
    have hle := (List.dropWhile_suffix (l := line) (· = 32)).length_le
    omega
  have hsums := wordSums_spec (a := .zero) hreads hlen
  have hID : ((nameSums (firstWord line) .zero).unCmd c).ID = nameID (firstWord line) := by
    rw [nameID, hcons]
    rfl
  have hgo : ¬((line.dropWhile (· = 32)).headD 0 = 0 ∨
      ((line.dropWhile (· = 32)).length : ℤ) = 0) := by
    rw [hrest]
    rintro (hzero | hempty)
    · exact hc hzero
    · rw [List.length_cons] at hempty
      omega
  simp only [shellParse, hline.index_eq, hskip, hload, Option.bind_eq_bind, Option.bind_some]
  rw [if_neg hgo, hsums, Option.bind_some]
  show (shellSearchCmd sh.ID fuel sh.root
    ((nameSums (firstWord line) .zero).unCmd ((line.dropWhile (· = 32)).headD 0)).ID).bind _ = _
  rw [hrest, List.headD_cons, hID, h.search hfuel, Option.bind_some, answer]
  cases hfirst : firstWith regs (nameID (firstWord line)) with
  | none =>
    rw [Option.map_none, Block.str_of_byte_eq_zero (Nat.zero_le _) hshort hline.nul]
    rfl
  | some q =>
    obtain ⟨hq, -⟩ := firstWith_mem hfirst
    rw [Option.map_some, sh.history.record_spec hline]
    show some _ = _
    rw [h.stored q hq]
    rfl

/-- Nothing is called for a line without a word, and the buffer is empty
again. -/
theorem shellParse_of_no_word (hline : Typed shellbuf line) (hword : firstWord line = []) :
    shellParse fuel sh shellbuf = some (sh, { shellbuf with index := 0 }, .nothing) := by
  have hshort := hline.short
  obtain ⟨k, hskip, hreads⟩ := skipSpaces_spec hline.reads (show _ < commandlineMaxLen + 1 by omega)
  have hload := hreads.load
  obtain ⟨-, hzero⟩ | ⟨c, word, text, hcons, -, -⟩ := firstWord_cases line
  · simp only [shellParse, hline.index_eq, hskip, hload, Option.bind_eq_bind, Option.bind_some]
    exact if_pos (.inl hzero)
  · rw [hcons] at hword
    cases hword

/-- **What `shell_parse` runs** is the first command registered under the ID
of the first word, and nothing else. -/
theorem shellParse_spec (h : Registered regs sh) (hfuel : regs.length < fuel)
    (hnew : (regs.map (·.newcmd)).Nodup) (hline : Typed shellbuf line) :
    ∃ sh' out, shellParse fuel sh shellbuf = some (sh', { shellbuf with index := 0 }, out) ∧
      ∀ r ∈ regs, Calls out r ↔ answering regs line = some r := by
  by_cases hword : firstWord line = []
  · refine ⟨sh, .nothing, shellParse_of_no_word hline hword, fun r _ => ?_⟩
    rw [answering, if_pos hword]
    refine iff_of_false ?_ (fun hr => by cases hr)
    rintro ⟨record, arg, hout⟩
    cases hout
  · refine ⟨_, _, shellParse_of_word h hfuel hline hword, fun r hr => ?_⟩
    rw [answering, if_neg hword, answer]
    cases hfirst : firstWith regs (nameID (firstWord line)) with
    | none =>
      refine iff_of_false ?_ (fun hr => by cases hr)
      rintro ⟨record, arg, hout⟩
      cases hout
    | some q =>
      obtain ⟨hq, -⟩ := firstWith_mem hfirst
      rw [Option.some.injEq]
      constructor
      · rintro ⟨record, arg, hout⟩
        exact List.inj_on_of_nodup_map hnew hq hr (Outcome.call.inj hout).1
      · rintro rfl
        exact ⟨_, _, rfl⟩

/-- A buffer that holds a line, with zeros behind it. -/
def ShellBuf.of (line : List UInt8) : ShellBuf := ⟨⟨fun i => line.getD i 0⟩, line.length⟩

/-- A shell with no commands and no history, as it is before `shell_init`
registers the first. -/
def Commands.start : Commands :=
  ⟨fun _ => ⟨0, [], 0⟩, ⟨fun _ => ⟨none, .balanced, none, none⟩, none⟩, ⟨fun _ => ⟨fun _ => 0⟩, 0, 0⟩⟩

theorem typed_of (line : List UInt8) (h : line.length < commandlineMaxLen) :
    Typed (.of line) line := by
  refine ⟨rfl, h, ?_, ?_⟩
  · refine List.ext_getElem (Block.length_slice) fun k hk hk' => ?_
    rw [Block.getElem_slice, Nat.zero_add]
    exact List.getD_eq_getElem _ _ hk'
  · exact List.getD_eq_default _ _ (le_refl _)

/-- Registrations from an empty root all succeed, where each has a structure
of its own. -/
theorem exists_registered (hnew : (regs.map (·.newcmd)).Nodup) (hfuel : regs.length < fuel)
    (hroot : sh.root.root = none) :
    ∃ sh₁, run (shellRegister fuel) sh regs = some sh₁ ∧ Registered regs sh₁ :=
  (registered_nil sh hroot).run (show (([] ++ regs).map _).Nodup from hnew)
    (by rwa [List.length_nil, Nat.zero_add])

/-- Registrations, and then a line: a command is called just where the line
is answered by it. -/
theorem exists_parse (hnew : (regs.map (·.newcmd)).Nodup) (hfuel : regs.length < fuel)
    (hroot : sh.root.root = none) (hline : Typed shellbuf line) :
    ∃ sh₁ sh₂ out, run (shellRegister fuel) sh regs = some sh₁ ∧
      shellParse fuel sh₁ shellbuf = some (sh₂, { shellbuf with index := 0 }, out) ∧
      ∀ r ∈ regs, Calls out r ↔ answering regs line = some r := by
  obtain ⟨sh₁, hrun, h₁⟩ := exists_registered hnew hfuel hroot
  obtain ⟨sh₂, out, hparse, hcalls⟩ := shellParse_spec h₁ hfuel hnew hline
  exact ⟨sh₁, sh₂, out, hrun, hparse, hcalls⟩

/-- **Where no other name has the ID of the word**, the command that
answers is that of the name. -/
theorem answering_eq_some_iff {r : Registration} (hr : r ∈ regs)
    (hnames : (regs.map (·.cmdName)).Nodup) (hname : r.cmdName ≠ [])
    (halone : ∀ q ∈ regs, nameID q.cmdName = nameID (firstWord line) → q.cmdName = firstWord line) :
    answering regs line = some r ↔ firstWord line = r.cmdName := by
  constructor
  · intro hanswer
    unfold answering at hanswer
    split at hanswer
    · cases hanswer
    · obtain ⟨hmem, hID⟩ := firstWith_mem hanswer
      exact (halone r hmem hID).symm
  · intro hword
    obtain ⟨q, hq, hfirst, hID⟩ := exists_firstWith hr
    have hsame : q.cmdName = r.cmdName := (halone q hq (hword ▸ hID)).trans hword
    rw [answering, if_neg (hword ▸ hname), hword, hfirst, List.inj_on_of_nodup_map hnames hq hr hsame]

/-- **The shell runs the command whose ID is typed**: the first registered
under the ID of the first word. That is the command of that name where no
other registered name has the ID. -/
theorem shell_runs_ID (hnew : (regs.map (·.newcmd)).Nodup)
    (hnames : (regs.map (·.cmdName)).Nodup) (hlength : ∀ r ∈ regs, 1 ≤ r.cmdName.length)
    (hfuel : regs.length < fuel) (hroot : sh.root.root = none) (hline : Typed shellbuf line) :
    ∃ sh₁ sh₂ out, run (shellRegister fuel) sh regs = some sh₁ ∧
      shellParse fuel sh₁ shellbuf = some (sh₂, { shellbuf with index := 0 }, out) ∧
      ∀ r ∈ regs, (Calls out r ↔ firstWord line ≠ [] ∧
          firstWith regs (nameID (firstWord line)) = some r) ∧
        ((∀ q ∈ regs, nameID q.cmdName = nameID (firstWord line) → q.cmdName = firstWord line) →
          (Calls out r ↔ firstWord line = r.cmdName)) := by
  obtain ⟨sh₁, sh₂, out, hrun, hparse, hcalls⟩ := exists_parse hnew hfuel hroot hline
  refine ⟨sh₁, sh₂, out, hrun, hparse, fun r hr => ⟨?_, fun halone => ?_⟩⟩
  · rw [hcalls r hr, answering]
    by_cases hword : firstWord line = []
    · rw [if_pos hword]
      exact iff_of_false (fun h => by cases h) fun h => h.1 hword
    · rw [if_neg hword, and_iff_right hword]
  · rw [hcalls r hr]
    exact answering_eq_some_iff hr hnames (List.length_pos_iff.1 (hlength r hr)) halone

/-- The commands `shell_init` registers, each with an address for its
`Func` and one for itself. -/
def initCommands : List Registration :=
  [⟨ascii "cmd-list", 1, 11⟩, ⟨ascii "clear", 2, 12⟩, ⟨ascii "debug-info", 3, 13⟩]

/-- A line that starts with a space, whose command is found all the same. -/
theorem shell_runs_ID_clear : ∃ sh₁ sh₂ out,
    run (shellRegister 4) .start initCommands = some sh₁ ∧
      shellParse 4 sh₁ (.of (ascii " clear")) =
        some (sh₂, { ShellBuf.of (ascii " clear") with index := 0 }, out) ∧
      ∀ r ∈ initCommands, (Calls out r ↔ firstWord (ascii " clear") ≠ [] ∧
          firstWith initCommands (nameID (firstWord (ascii " clear"))) = some r) ∧
        ((∀ q ∈ initCommands, nameID q.cmdName = nameID (firstWord (ascii " clear")) →
            q.cmdName = firstWord (ascii " clear")) →
          (Calls out r ↔ firstWord (ascii " clear") = r.cmdName)) :=
  shell_runs_ID (by decide) (by decide) (by decide) (by decide) rfl (typed_of _ (by decide))

/-- `clear`, as `shell_init` registers it. -/
def clear : Registration := ⟨ascii "clear", 2, 12⟩

/-- A command of another name that has the ID of `clear`. -/
def cmunt : Registration := ⟨ascii "cmunt", 4, 14⟩

/-- **Two names of one ID**: `cmunt` is registered behind `clear`, runs
`clear`, and never the command of its name. -/
theorem cmunt_runs_clear : ∃ sh₁ sh₂ out,
    run (shellRegister 5) .start (initCommands ++ [cmunt]) = some sh₁ ∧
      shellParse 5 sh₁ (.of cmunt.cmdName) =
        some (sh₂, { ShellBuf.of cmunt.cmdName with index := 0 }, out) ∧
      Calls out clear ∧ firstWord cmunt.cmdName ≠ clear.cmdName ∧
      ¬Calls out cmunt ∧ firstWord cmunt.cmdName = cmunt.cmdName := by
  have hnew : ((initCommands ++ [cmunt]).map (·.newcmd)).Nodup := by decide
  have hline : Typed (.of cmunt.cmdName) cmunt.cmdName := typed_of _ (by decide)
  obtain ⟨sh₁, sh₂, out, hrun, hparse, hcalls⟩ :=
    exists_parse hnew (show _ < 5 by decide) (show Commands.start.root.root = none from rfl) hline
  have hfirst : answering (initCommands ++ [cmunt]) cmunt.cmdName = some clear := by
    decide +kernel
  refine ⟨sh₁, sh₂, out, hrun, hparse, ?_, by decide, ?_, by decide⟩
  · exact (hcalls _ (by decide)).2 hfirst
  · rw [hcalls _ (by decide), hfirst]
    decide

end Shell

end SlipBoard
