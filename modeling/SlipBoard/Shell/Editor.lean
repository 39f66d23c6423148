import SlipBoard.Shell.Model.Editor
import SlipBoard.Shell.Tab
import Mathlib.Data.List.Forall2
/-!
# Shell — a session of keys

What a run of keys does to the line, to the history and to the commands,
told without memory (`Editor`): a character goes behind the line and wipes
it where there is no room, Backspace takes the last one away, the arrows
walk over the last four lines that have been records, in a ring that they
may go round, and Enter has the line answered and leaves an empty one.
`shell_input` does that, key by key, and no access is outside the line or
the history (`session_spec`).

Behind Ctrl-C and Enter the characters still stand in the buffer, with an
`index` of 0 (`Edits`). TAB is the business of another module, and is met
here where that tells what it does.
-/

namespace SlipBoard

namespace Shell

open Transition

/-! ## Without memory -/

/-- A line, the records from the oldest on, how many rows the arrows have
gone back, and the lines that have been entered. -/
structure Editor where
  line : List UInt8
  records : List (List UInt8)
  back : Fin commandlineMaxRecord
  entered : List (List UInt8)
  deriving DecidableEq

/-- A character behind a line, of which 35 fit. The one that makes it 36
clears the line. -/
def typeChar (line : List UInt8) (c : UInt8) : List UInt8 :=
  if line.length + 1 < commandlineMaxLen then line ++ [c] else []

/-- How many records are behind the one in the row that is `back` in front
of the row written next. The latter, with `back = 0`, holds the fourth
last. -/
def recordsBehind (back : Fin commandlineMaxRecord) : ℕ := if back = 0 then 3 else back.val - 1

/-- The line in the row that is `back` in front of the row written next, an
empty one where nothing has been recorded there. -/
def recordAt (records : List (List UInt8)) (back : Fin commandlineMaxRecord) : List UInt8 :=
  (records.reverse[recordsBehind back]?).getD []

/-- What a key does, with `regs` the commands registered. -/
def Editor.key (regs : List Registration) (e : Editor) : Key → Editor
  | .enter =>
    if e.line = [] then e
    else if (answering regs e.line).isSome then
      { e with
        line := [], records := e.records ++ [e.line], back := 0, entered := e.entered ++ [e.line] }
    else { e with line := [], entered := e.entered ++ [e.line] }
  | .tab => { e with line := completed (matching regs e.line) e.line }
  | .backspace => { e with line := e.line.dropLast }
  | .history false => { e with back := e.back + 1, line := recordAt e.records (e.back + 1) }
  | .history true =>
    if e.back = 0 then { e with line := [] }
    else { e with back := e.back - 1, line := recordAt e.records (e.back - 1) }
  | .ctrlC => { e with line := [] }
  | .char c => { e with line := typeChar e.line c }

/-! ## The line -/

variable {shellbuf : ShellBuf} {line text : List UInt8} {sh : Commands}
variable {regs : List Registration} {fuel : ℕ}

/-- The buffer holds the line, with a NUL behind it where it is not
empty. -/
structure Edits (shellbuf : ShellBuf) (line : List UInt8) : Prop where
  index_eq : shellbuf.index = line.length
  short : line.length < commandlineMaxLen
  text : shellbuf.bufmem.slice 0 line.length = line
  nul : line ≠ [] → shellbuf.bufmem.byte line.length = 0

theorem Typed.edits (h : Typed shellbuf line) : Edits shellbuf line :=
  ⟨h.index_eq, h.short, h.text, fun _ => h.nul⟩

theorem Edits.typed (h : Edits shellbuf line) (hne : line ≠ []) : Typed shellbuf line :=
  ⟨h.index_eq, h.short, h.text, h.nul hne⟩

/-- An `index` of 0 is an empty line, whatever the buffer holds. -/
theorem edits_nil (b : Block commandlineMaxLen) : Edits ⟨b, 0⟩ [] :=
  ⟨rfl, Nat.succ_pos _, rfl, fun h => absurd rfl h⟩

theorem wipe_spec (shellbuf : ShellBuf) : ∃ shellbuf', shellbuf.wipe = some shellbuf' ∧
    Edits shellbuf' [] := by
  refine ⟨_, ?_, edits_nil (shellbuf.bufmem.set 0 0)⟩
  rw [ShellBuf.wipe, Block.store_of_lt (Nat.succ_pos _)]
  rfl

/-- **A text copied into the line**, with a NUL behind it, is the line that
is edited. -/
theorem edits_overwrite (b : Block commandlineMaxLen) (hshort : text.length < commandlineMaxLen) :
    Edits ⟨b.overwrite 0 (text ++ [0]), text.length⟩ text := by
  refine ⟨rfl, hshort, ?_, fun _ => ?_⟩
  · have hfits : text.length ≤ (text ++ [0]).length := by simp
    refine (Block.slice_overwrite_take hfits).trans ?_
    rw [List.take_left']
    rfl
  · rw [Block.byte_overwrite]
    simp

/-- **`shell_getchar`** puts a character behind the line, or wipes it where
it is full. -/
theorem shellGetchar_edits (h : Edits shellbuf line) (c : UInt8) :
    ∃ log shellbuf', shellGetchar shellbuf c = ⟨log, some shellbuf'⟩ ∧
      Edits shellbuf' (typeChar line c) := by
  have hshort := h.short
  have hmod : (line.length + 1) % commandlineMaxLen < commandlineMaxLen :=
    Nat.mod_lt _ (Nat.succ_pos _)
  unfold shellGetchar
  rw [h.index_eq, Block.store_of_lt hshort, Traced.lift_some_bind]
  dsimp only
  rw [Block.store_of_lt hmod, Traced.lift_some_bind, Block.load_of_lt hshort,
    Traced.lift_some_bind]
  refine ⟨_, _, rfl, ?_⟩
  unfold typeChar
  split_ifs with hroom
  · rw [Nat.mod_eq_of_lt hroom]
    refine ⟨by rw [List.length_append]; rfl, by rwa [List.length_append], ?_, fun _ => ?_⟩
    · rw [List.length_append, List.length_singleton, Block.slice_succ, Nat.zero_add,
        Block.slice_set_of_le (by omega), Block.slice_set_of_le (by omega), h.text,
        Block.byte_set_of_ne (by omega), Block.byte_set_self]
    · rw [List.length_append, List.length_singleton, Block.byte_set_self]
  · rw [show (line.length + 1) % commandlineMaxLen = 0 by
      rw [show line.length + 1 = commandlineMaxLen by omega, Nat.mod_self]]
    exact edits_nil _

/-- **`shell_backspace`** takes the last character away, and does nothing to
an empty line. -/
theorem shellBackspace_edits (h : Edits shellbuf line) :
    ∃ shellbuf' text, shellBackspace shellbuf = some (shellbuf', text) ∧
      Edits shellbuf' line.dropLast := by
  have hshort := h.short
  unfold shellBackspace
  rw [h.index_eq]
  rcases List.eq_nil_or_concat line with rfl | ⟨front, c, rfl⟩
  · exact ⟨shellbuf, [], rfl, h⟩
  · rw [List.concat_eq_append] at h hshort ⊢
    have htext := h.text
    rw [List.length_append, List.length_singleton, Block.slice_succ, Nat.zero_add] at htext
    rw [List.length_append, List.length_singleton] at hshort ⊢
    rw [if_pos (Nat.succ_ne_zero _), Nat.add_sub_cancel, Block.store_of_lt (by omega),
      List.dropLast_concat]
    refine ⟨_, _, rfl, rfl, by omega, ?_, fun _ => Block.byte_set_self⟩
    rw [Block.slice_set_of_le (by omega)]
    exact (List.append_inj' htext rfl).1

/-! ## The rows of the history -/

/-- The rows hold the records, `read` so many rows back. -/
structure Recalls (h : History) (records : List (List UInt8)) (back : Fin commandlineMaxRecord) :
    Prop where
  read_eq : h.read = h.write - back
  row : ∀ k, (h.buf (h.write - k)).str 0 = some (recordAt records k)

theorem recordsBehind_add_one : ∀ k : Fin commandlineMaxRecord,
    recordsBehind (k + 1) = if k = 0 then 0 else recordsBehind k + 1 := by decide

/-- With a new record each of the others is one further back. -/
theorem recordAt_concat (records : List (List UInt8)) (line : List UInt8)
    (k : Fin commandlineMaxRecord) :
    recordAt (records ++ [line]) (k + 1) = if k = 0 then line else recordAt records k := by
  unfold recordAt
  rw [recordsBehind_add_one, List.reverse_append, List.reverse_singleton, List.singleton_append]
  split_ifs <;> rfl

theorem sub_add_one : ∀ w k : Fin commandlineMaxRecord, w + 1 - (k + 1) = w - k := by decide

theorem sub_eq_self : ∀ w k : Fin commandlineMaxRecord, w - k = w ↔ k = 0 := by decide

theorem exists_add_one : ∀ k : Fin commandlineMaxRecord, ∃ j, k = j + 1 := by decide

/-- **A record** goes into the row written next, and the arrows start from
it again. -/
theorem Recalls.recorded {h : History} {records : List (List UInt8)}
    {back : Fin commandlineMaxRecord} (hrecalls : Recalls h records back)
    (hshort : line.length < commandlineMaxLen) (hnul : 0 ∉ line) :
    Recalls (h.recorded line) (records ++ [line]) 0 := by
  refine ⟨((sub_eq_self _ _).2 rfl).symm, fun k => ?_⟩
  obtain ⟨k, rfl⟩ := exists_add_one k
  rw [recordAt_concat]
  show ((h.recorded line).buf (h.write + 1 - (k + 1))).str 0 = _
  rw [sub_add_one, History.recorded]
  dsimp only
  split_ifs with hk
  · rw [(sub_eq_self _ _).2 hk, Function.update_self]
    exact Block.str_overwrite_nul hnul (by rwa [Nat.zero_add])
  · rw [Function.update_of_ne (mt (sub_eq_self _ _).1 hk)]
    exact hrecalls.row k

theorem up_eq : ∀ w k : Fin commandlineMaxRecord,
    (if w - k = 0 then Fin.last 3 else w - k - 1) = w - (k + 1) := by decide

theorem down_eq : ∀ w k : Fin commandlineMaxRecord, w - k + 1 = w - (k - 1) := by decide

/-- The arrows move `read`, and nothing else of the history. -/
theorem Recalls.read {h : History} {records : List (List UInt8)}
    {back back' : Fin commandlineMaxRecord} (hrecalls : Recalls h records back)
    {read : Fin commandlineMaxRecord} (hread : read = h.write - back') :
    Recalls { h with read := read } records back' := ⟨hread, hrecalls.row⟩

/-- The lines that are recalled are as long as lines are. -/
structure Recordable (records : List (List UInt8)) : Prop where
  short : ∀ r ∈ records, r.length < commandlineMaxLen
  noNul : ∀ r ∈ records, 0 ∉ r

theorem Recordable.recordAt {records : List (List UInt8)} (h : Recordable records)
    (k : Fin commandlineMaxRecord) :
    (recordAt records k).length < commandlineMaxLen ∧ 0 ∉ recordAt records k := by
  unfold Shell.recordAt
  cases hrow : records.reverse[recordsBehind k]? with
  | none => exact ⟨Nat.succ_pos _, List.not_mem_nil⟩
  | some r =>
    have hr : r ∈ records := List.mem_reverse.1 (List.mem_of_getElem? hrow)
    exact ⟨h.short r hr, h.noNul r hr⟩

/-- **A row goes into the line**, and takes the place of what was edited. -/
theorem showRow_edits {h : History} {records : List (List UInt8)}
    {back : Fin commandlineMaxRecord} (hrecalls : Recalls h records back)
    (hrecords : Recordable records) (shellbuf : ShellBuf) :
    ∃ shellbuf' text, showRow h shellbuf = some (shellbuf', text) ∧
      Edits shellbuf' (recordAt records back) := by
  obtain ⟨hshort, -⟩ := hrecords.recordAt back
  unfold showRow
  rw [hrecalls.read_eq, hrecalls.row back, Option.bind_eq_bind, Option.bind_some]
  by_cases hlen : (recordAt records back).length = 0
  · obtain ⟨shellbuf', hwipe, hedits⟩ := wipe_spec shellbuf
    rw [if_neg (not_not.2 hlen), hwipe, List.length_eq_zero_iff.1 hlen]
    exact ⟨shellbuf', [], rfl, hedits⟩
  · rw [if_pos hlen, Block.write_of_le (by omega), Option.bind_eq_bind, Option.bind_some,
      Block.store_of_lt hshort, Block.set_eq_overwrite,
      Block.overwrite_overwrite (Nat.zero_add _).symm]
    exact ⟨_, _, rfl, edits_overwrite _ hshort⟩

/-- **The arrow up** shows the row in front, -/
theorem showHistory_up {h : History} {records : List (List UInt8)}
    {back : Fin commandlineMaxRecord} (hrecalls : Recalls h records back)
    (hrecords : Recordable records) (sign : List UInt8) (shellbuf : ShellBuf) :
    ∃ h' shellbuf' text, shellShowHistory sign h shellbuf false = some (h', shellbuf', text) ∧
      Recalls h' records (back + 1) ∧ Edits shellbuf' (recordAt records (back + 1)) := by
  have hup := hrecalls.read ((congrArg (fun r => if r = 0 then Fin.last 3 else r - 1)
    hrecalls.read_eq).trans (up_eq h.write back))
  obtain ⟨shellbuf', text, hshow, hedits⟩ := showRow_edits hup hrecords shellbuf
  refine ⟨_, shellbuf', ascii "\x1b[2K\r" ++ sign ++ text, ?_, hup, hedits⟩
  simp only [shellShowHistory, Bool.not_false, if_true, hshow]
  rfl

/-- **and the arrow down** the row behind, or an empty line where the
arrows have come round. -/
theorem showHistory_down {h : History} {records : List (List UInt8)}
    {back : Fin commandlineMaxRecord} (hrecalls : Recalls h records back)
    (hrecords : Recordable records) (sign : List UInt8) (shellbuf : ShellBuf) :
    ∃ h' shellbuf' text, shellShowHistory sign h shellbuf true = some (h', shellbuf', text) ∧
      (if back = 0 then Recalls h' records back ∧ Edits shellbuf' []
      else Recalls h' records (back - 1) ∧ Edits shellbuf' (recordAt records (back - 1))) := by
  have hround : h.read = h.write ↔ back = 0 := by rw [hrecalls.read_eq, sub_eq_self]
  by_cases hback : back = 0
  · obtain ⟨shellbuf', hwipe, hedits⟩ := wipe_spec shellbuf
    refine ⟨_, shellbuf', ascii "\x1b[2K\r" ++ sign, ?_,
      by rw [if_pos hback]; exact ⟨hrecalls, hedits⟩⟩
    simp only [shellShowHistory, Bool.not_true, if_pos (hround.2 hback), hwipe]
    rfl
  · have hdown := hrecalls.read ((congrArg (· + 1) hrecalls.read_eq).trans (down_eq h.write back))
    obtain ⟨shellbuf', text, hshow, hedits⟩ := showRow_edits hdown hrecords shellbuf
    refine ⟨_, shellbuf', ascii "\x1b[2K\r" ++ sign ++ text, ?_,
      by rw [if_neg hback]; exact ⟨hdown, hedits⟩⟩
    simp only [shellShowHistory, Bool.not_true, if_neg (mt hround.1 hback), hshow]
    rfl

/-! ## A key -/

/-- What is asked of a key: a character is not NUL, and for TAB there is a
line without a space, with ten names at most that begin with it and what
they share no longer than a line. -/
def Allowed (regs : List Registration) (e : Editor) : Key → Prop
  | .char c => c ≠ 0
  | .tab => e.line ≠ [] ∧ 32 ∉ e.line ∧ (matching regs e.line).length ≤ 10 ∧
      (completed (matching regs e.line) e.line).length < commandlineMaxLen
  | _ => True

instance (e : Editor) : ∀ k, Decidable (Allowed regs e k)
  | .char _ => inferInstanceAs (Decidable (_ ≠ _))
  | .tab => inferInstanceAs (Decidable (_ ∧ _))
  | .enter => inferInstanceAs (Decidable True)
  | .backspace => inferInstanceAs (Decidable True)
  | .history _ => inferInstanceAs (Decidable True)
  | .ctrlC => inferInstanceAs (Decidable True)

/-- **The shell does what the editor does**: its tree holds the
registrations, its line and its history are those of the editor, and its
outcomes are the lines that were ended. -/
structure Session (regs : List Registration) (s : Console) (e : Editor) : Prop where
  registered : Registered regs s.sh
  recalls : Recalls s.sh.history e.records e.back
  recordable : Recordable e.records
  edits : Edits s.shellbuf e.line
  noNul : 0 ∉ e.line
  ended : List.Forall₂ (fun outcome line => ∀ r ∈ regs,
    Calls outcome r ↔ answering regs line = some r) s.ended e.entered

variable {s : Console} {e : Editor}

/-- The history is not what the commands are registered in. -/
theorem Registered.history (h : Registered regs sh) (history : History) :
    Registered regs { sh with history := history } := ⟨h.stored, h.indexed⟩

theorem noNul_typeChar {c : UInt8} (hnul : 0 ∉ line) (hc : c ≠ 0) : 0 ∉ typeChar line c := by
  unfold typeChar
  split_ifs
  · rw [List.mem_append, List.mem_singleton, not_or]
    exact ⟨hnul, hc.symm⟩
  · exact List.not_mem_nil

theorem noNul_completed (hnames : ∀ r ∈ regs, 0 ∉ r.cmdName) (hnul : 0 ∉ line) :
    0 ∉ completed (matching regs line) line := by
  unfold completed
  split_ifs with hnone
  · exact hnul
  · obtain ⟨name, hname⟩ := List.exists_mem_of_ne_nil _ hnone
    intro hzero
    obtain ⟨r, hr, rfl⟩ := List.mem_map.1 hname
    exact hnames r (List.mem_filter.1 hr).1 ((sharedPrefix_le hname).subset hzero)

/-- What Enter does with a line: it is recorded where a command answers it,
and no other line is. -/
theorem shellParse_answers (hregistered : Registered regs sh) (hfuel : regs.length < fuel)
    (hnew : (regs.map (·.newcmd)).Nodup) (hline : Typed shellbuf line) :
    ∃ outcome, shellParse fuel sh shellbuf =
        some (if (answering regs line).isSome then { sh with history := sh.history.recorded line }
          else sh, { shellbuf with index := 0 }, outcome) ∧
      ∀ r ∈ regs, Calls outcome r ↔ answering regs line = some r := by
  obtain ⟨sh', outcome, hparse, hcalls⟩ := shellParse_spec hregistered hfuel hnew hline
  by_cases hword : firstWord line = []
  · rw [shellParse_of_no_word hline hword] at hparse
    cases hparse
    refine ⟨.nothing, ?_, hcalls⟩
    rw [shellParse_of_no_word hline hword, answering, if_pos hword]
    rfl
  · rw [shellParse_of_word hregistered hfuel hline hword] at hparse
    cases hparse
    refine ⟨_, ?_, hcalls⟩
    rw [shellParse_of_word hregistered hfuel hline hword, answering, if_neg hword, answer]
    cases firstWith regs (nameID (firstWord line)) <;> rfl

/-- Enter keeps the shell and the editor in step, -/
theorem Session.enter (h : Session regs s e) (hfuel : regs.length < fuel)
    (hnew : (regs.map (·.newcmd)).Nodup) (sign : List UInt8) :
    ∃ s', s.key fuel sign .enter = some s' ∧ Session regs s' (e.key regs .enter) := by
  simp only [Console.key, Editor.key, h.edits.index_eq]
  by_cases hline : e.line = []
  · rw [if_neg (by rw [hline]; exact fun h => h rfl), if_pos hline]
    exact ⟨_, rfl, ⟨h.registered, h.recalls, h.recordable, h.edits, h.noNul, h.ended⟩⟩
  · obtain ⟨outcome, hparse, hcalls⟩ :=
      shellParse_answers h.registered hfuel hnew (h.edits.typed hline)
    rw [if_pos (mt List.length_eq_zero_iff.1 hline), if_neg hline, hparse]
    refine ⟨_, rfl, ?_⟩
    have hended := List.rel_append h.ended (.cons hcalls .nil)
    split_ifs with hanswer
    · refine ⟨h.registered.history _, h.recalls.recorded h.edits.short h.noNul, ⟨?_, ?_⟩,
        edits_nil _, List.not_mem_nil, hended⟩
      all_goals
        intro r hr
        rcases List.mem_append.1 hr with hr | hr
      · exact h.recordable.short r hr
      · exact List.mem_singleton.1 hr ▸ h.edits.short
      · exact h.recordable.noNul r hr
      · exact List.mem_singleton.1 hr ▸ h.noNul
    · exact ⟨h.registered, h.recalls, h.recordable, edits_nil _, List.not_mem_nil, hended⟩

/-- an arrow does, -/
theorem Session.history (h : Session regs s e) (sign : List UInt8) (next : Bool) :
    ∃ s', s.key fuel sign (.history next) = some s' ∧
      Session regs s' (e.key regs (.history next)) := by
  cases next with
  | false =>
    obtain ⟨h', shellbuf', text, hshow, hrecalls, hedits⟩ :=
      showHistory_up h.recalls h.recordable sign s.shellbuf
    refine ⟨_, by rw [Console.key, hshow]; rfl, ?_⟩
    exact ⟨h.registered.history _, hrecalls, h.recordable, hedits, (h.recordable.recordAt _).2,
      h.ended⟩
  | true =>
    obtain ⟨h', shellbuf', text, hshow, hdown⟩ :=
      showHistory_down h.recalls h.recordable sign s.shellbuf
    refine ⟨_, by rw [Console.key, hshow]; rfl, ?_⟩
    rw [Editor.key]
    split_ifs at hdown ⊢ with hback
    · exact ⟨h.registered.history _, hdown.1, h.recordable, hdown.2, List.not_mem_nil, h.ended⟩
    · exact ⟨h.registered.history _, hdown.1, h.recordable, hdown.2, (h.recordable.recordAt _).2,
        h.ended⟩

/-- TAB does, where it is allowed, -/
theorem Session.tab (h : Session regs s e) (hfuel : regs.length < fuel)
    (hnew : (regs.map (·.newcmd)).Nodup) (hnames : ∀ r ∈ regs, 0 ∉ r.cmdName)
    (hallowed : Allowed regs e .tab) (sign : List UInt8) :
    ∃ s', s.key fuel sign .tab = some s' ∧ Session regs s' (e.key regs .tab) := by
  obtain ⟨hline, hspace, hten, hshort⟩ := hallowed
  obtain ⟨-, buf, hanswer, hbuf⟩ := h.registered.tab sign hnew hnames hfuel (h.edits.typed hline)
    hline hspace h.noNul fun _ => hshort
  rw [if_pos hten] at hbuf
  refine ⟨_, by rw [Console.key, hanswer]; rfl, ?_⟩
  exact ⟨h.registered, h.recalls, h.recordable, hbuf.edits, noNul_completed hnames h.noNul,
    h.ended⟩

/-- and so does any key. -/
theorem Session.key (h : Session regs s e) (hfuel : regs.length < fuel)
    (hnew : (regs.map (·.newcmd)).Nodup) (hnames : ∀ r ∈ regs, 0 ∉ r.cmdName) {k : Key}
    (hallowed : Allowed regs e k) (sign : List UInt8) :
    ∃ s', s.key fuel sign k = some s' ∧ Session regs s' (e.key regs k) := by
  cases k with
  | enter => exact h.enter hfuel hnew sign
  | tab => exact h.tab hfuel hnew hnames hallowed sign
  | history next => exact h.history sign next
  | backspace =>
    obtain ⟨shellbuf', text, hback, hedits⟩ := shellBackspace_edits h.edits
    refine ⟨_, by rw [Console.key, hback]; rfl, ?_⟩
    exact ⟨h.registered, h.recalls, h.recordable, hedits,
      fun hzero => h.noNul (List.dropLast_subset _ hzero), h.ended⟩
  | ctrlC =>
    exact ⟨_, rfl, h.registered, h.recalls, h.recordable, edits_nil _, List.not_mem_nil, h.ended⟩
  | char c =>
    obtain ⟨log, shellbuf', hchar, hedits⟩ := shellGetchar_edits h.edits c
    refine ⟨_, by rw [Console.key, hchar]; rfl, ?_⟩
    exact ⟨h.registered, h.recalls, h.recordable, hedits, noNul_typeChar h.noNul hallowed,
      h.ended⟩

/-! ## A run of keys -/

/-- **A run of keys** from any state on: none fails, and the shell and the
editor stay together. -/
theorem Session.run (hfuel : regs.length < fuel) (hnew : (regs.map (·.newcmd)).Nodup)
    (hnames : ∀ r ∈ regs, 0 ∉ r.cmdName) (sign : List UInt8) {keys : List Key} :
    ∀ {s : Console} {e : Editor}, Session regs s e →
      Along (fun e k => some (e.key regs k)) (Allowed regs) e keys →
        ∃ s', Transition.run (Console.key fuel sign) s keys = some s' ∧
          Session regs s' (keys.foldl (Editor.key regs) e) := by
  induction keys with
  | nil => exact fun h _ => ⟨_, rfl, h⟩
  | cons k keys ih =>
    rintro s e h ⟨hallowed, hrest⟩
    obtain ⟨t, ht, hsession⟩ := h.key hfuel hnew hnames hallowed sign
    obtain ⟨s', hrun, hs'⟩ := ih hsession (hrest _ rfl)
    exact ⟨s', run_cons.2 ⟨t, ht, hrun⟩, hs'⟩

/-- The editor at power-up: nothing typed, nothing recorded and nothing
entered. -/
def Editor.start : Editor := ⟨[], [], 0, []⟩

/-- A connection at its start: the commands as registered, an empty buffer,
and nothing printed yet. -/
def Console.start (sh : Commands) : Console := ⟨sh, .of [], [], []⟩

/-- A history that has been cleared, with its write and read rows at the
front. -/
def History.start : History := ⟨fun _ => ⟨fun _ => 0⟩, 0, 0⟩

theorem recalls_start : Recalls .start [] 0 := by
  refine ⟨rfl, fun k => ?_⟩
  show (⟨fun _ => 0⟩ : Block commandlineMaxLen).str 0 = _
  rw [Block.str_of_byte_eq_zero (Nat.le_refl 0) (Nat.succ_pos _) rfl]
  rfl

/-- Registering a command leaves the history as it is. -/
theorem history_shellRegister {sh' : Commands} {r : Registration}
    (h : shellRegister fuel sh r = some sh') : sh'.history = sh.history := by
  unfold shellRegister at h
  obtain ⟨⟨root, n⟩, -, h⟩ := Option.bind_eq_some_iff.1 h
  cases h
  rfl

theorem history_registered {sh' : Commands} : ∀ {regs : List Registration} {sh : Commands},
    Transition.run (shellRegister fuel) sh regs = some sh' → sh'.history = sh.history := by
  intro regs
  induction regs with
  | nil =>
    intro sh h
    cases h
    rfl
  | cons r regs ih =>
    intro sh h
    obtain ⟨t, ht, hrun⟩ := run_cons.1 h
    rw [ih hrun, history_shellRegister ht]

/-- **A session of keys** behind any registrations: none of the keys fails,
and what the shell has in its line and its history, and has run, is what the
editor says. A TAB of the session comes on a line that is not empty and has
no space, has ten matches at most, and a completion that fits (`Allowed`). -/
theorem session_spec (hnew : (regs.map (·.newcmd)).Nodup) (hnames : ∀ r ∈ regs, 0 ∉ r.cmdName)
    (hfuel : regs.length < fuel) (hroot : sh.root.root = none) (hhistory : sh.history = .start)
    (sign : List UInt8) (keys : List Key)
    (hallowed : Along (fun e k => some (e.key regs k)) (Allowed regs) .start keys) :
    ∃ sh₁ s, Transition.run (shellRegister fuel) sh regs = some sh₁ ∧
      Transition.run (Console.key fuel sign) (.start sh₁) keys = some s ∧
      Session regs s (keys.foldl (Editor.key regs) .start) := by
  obtain ⟨sh₁, hrun, h₁⟩ := exists_registered hnew hfuel hroot
  have hstart : Session regs (.start sh₁) .start :=
    ⟨h₁, by rw [Console.start, history_registered hrun, hhistory]; exact recalls_start,
      ⟨nofun, nofun⟩, edits_nil _, List.not_mem_nil, .nil⟩
  obtain ⟨s, hkeys, hsession⟩ := hstart.run hfuel hnew hnames sign hallowed
  exact ⟨sh₁, s, hrun, hkeys, hsession⟩

/-- `cleas` is typed, its end taken back and completed; behind Enter the
arrow up brings the line again, Ctrl-C wipes it. -/
def sessionKeys : List Key :=
  (ascii "cleas").map .char ++ [.backspace, .tab, .enter, .history false, .enter, .char 32, .ctrlC]

/-- **`clear`, twice**: once typed, and once from the history. -/
theorem session_spec_clear : ∃ sh₁ s, Transition.run (shellRegister 4) .start initCommands = some sh₁ ∧
    Transition.run (Console.key 4 []) (.start sh₁) sessionKeys = some s ∧ s.shellbuf.index = 0 ∧
    List.Forall₂ (fun outcome line => ∀ r ∈ initCommands,
      Calls outcome r ↔ answering initCommands line = some r) s.ended
      [ascii "clear", ascii "clear"] := by
  have hfuel : initCommands.length < 4 := by decide
  have hallowed : Along (fun e k => some (Editor.key initCommands e k)) (Allowed initCommands)
      .start sessionKeys := by decide +kernel
  have hend : sessionKeys.foldl (Editor.key initCommands) .start =
      ⟨[], [ascii "clear", ascii "clear"], 0, [ascii "clear", ascii "clear"]⟩ := by
    decide +kernel
  obtain ⟨sh₁, s, hrun, hkeys, hsession⟩ := session_spec (by decide) (by decide) hfuel
    (show Commands.start.root.root = none from rfl) rfl [] sessionKeys hallowed
  rw [hend] at hsession
  exact ⟨sh₁, s, hrun, hkeys, hsession.edits.index_eq, hsession.ended⟩

end Shell

end SlipBoard
