import Mathlib.Data.List.DropRight
import SlipBoard.Common.Prefix
import SlipBoard.Microrl.Safety
/-!
# Line editor — the word TAB completes

What TAB is to do is said of the word in front of the cursor: the names
that begin with it, and what they have in common (`completion`). The
code limits `split` by the cursor, but reads the last token as a string,
and so takes in what stands behind the cursor. At the end of a word the
two agree. Inside one, TAB looks for the names that begin with the whole
word, and inserts what they have beyond all of it (`added`).
-/

namespace SlipBoard

namespace Microrl

open Transition

variable {s s' s₁ s₂ : MicrorlT} {held : List (List UInt8)} {keyworld names : List (List UInt8)}
  {name tkn text text' : List UInt8} {room : ℕ}

/-! ## What is to be done -/

/-- The names of the table that begin with `w`, in the order of the table. -/
def matching (keyworld : List (List UInt8)) (w : List UInt8) : List (List UInt8) :=
  keyworld.filter fun name => w.isPrefixOf name

/-- What is to be inserted behind `w`, so that it is replaced by the one
name that begins with it and a space, or by what several have in
common. -/
def completion (keyworld : List (List UInt8)) (w : List UInt8) : List UInt8 :=
  match matching keyworld w with
  | [] => []
  | name :: names =>
    if ∀ n ∈ names, n = name then name.drop w.length ++ [32]
    else (sharedPrefix (name :: names)).drop w.length

/-- The word in front of the cursor: the non-zero bytes that end there. -/
def MicrorlT.wordBefore (s : MicrorlT) : List UInt8 :=
  (s.line.take s.cursor).rtakeWhile (· ≠ 0)

/-- A text inserted at the cursor, spaces stored as zeros: what was
behind the cursor still is. -/
structure Inserts (s : MicrorlT) (text : List UInt8) (s' : MicrorlT) : Prop where
  line : s'.line = s.line.take s.cursor ++ text.map zeroSpace ++ s.line.drop s.cursor
  cursor : s'.cursor = s.cursor + text.length

/-- **TAB completes the word in front of the cursor**, and only that: it
answers, and what it inserts is what is due. -/
def Completes (keyworld : List (List UInt8)) (s : MicrorlT) : Prop :=
  ∃ s', s.microrlInsertChar 9 = some s' ∧ Inserts s (completion keyworld s.wordBefore) s'

/-! ## What is done -/

/-- A text, where there is room for all of it, else nothing: the editor
inserts the whole text or leaves the line alone. -/
def fitting (room : ℕ) (text : List UInt8) : List UInt8 := if text.length ≤ room then text else []

/-- What TAB inserts for a token and the names that begin with it: what
they have beyond it, and a space behind the only one, each where there
is room for it. -/
def added (room : ℕ) (names : List (List UInt8)) (tkn : List UInt8) : List UInt8 :=
  let rest := fitting room ((sharedPrefix names).drop tkn.length)
  if sharedPrefix names = [] then []
  else if names.length = 1 then rest ++ fitting (room - rest.length) [32]
  else rest

theorem Inserts.refl (s : MicrorlT) : Inserts s [] s := by
  refine ⟨?_, rfl⟩
  rw [List.map_nil, List.append_nil, List.take_append_drop]

theorem Inserts.trans (hcur : s.cursor ≤ s.cmdlen) (h : Inserts s text s₁)
    (h' : Inserts s₁ text' s₂) : Inserts s (text ++ text') s₂ := by
  have hlen : (s.line.take s.cursor ++ text.map zeroSpace).length = s₁.cursor := by
    rw [h.cursor, List.length_append, List.length_take, List.length_map, MicrorlT.length_line,
      Nat.min_eq_left hcur]
  constructor
  · rw [h'.line, h.line, List.take_left' hlen, List.drop_left' hlen, List.map_append]
    simp only [List.append_assoc]
  · rw [h'.cursor, h.cursor, List.length_append, Nat.add_assoc]

/-- Two insertions that leave the same are of the same text. -/
theorem Inserts.unique (h : Inserts s text s') (h' : Inserts s text' s') :
    text.map zeroSpace = text'.map zeroSpace := by
  have hlines := h.line.symm.trans h'.line
  rw [List.append_assoc, List.append_assoc, List.append_cancel_left_eq,
    List.append_cancel_right_eq] at hlines
  exact hlines

theorem Inserts.of_map (h : Inserts s text s') (heq : text.map zeroSpace = text'.map zeroSpace) :
    Inserts s text' s' := by
  have hlen : text.length = text'.length := by simpa using congrArg List.length heq
  exact ⟨heq ▸ h.line, hlen ▸ h.cursor⟩

/-- In front of the length the code finds, no two names differ. -/
theorem getElem?_eq_of_lt_commonLen {i : ℕ} (hi : i < commonLen names) :
    ∃ c, ∀ w ∈ names, w[i]? = c := by
  simp only [commonLen] at hi
  revert hi
  generalize names.foldl (fun m w => if w.length < m.length then w else m) (names.headD []) =
    shortest
  intro hi
  have hsame : (names.any fun w => shortest[i]? ≠ w[i]?) = false := by
    cases hfind : (List.range shortest.length).find? fun i =>
        names.any fun w => shortest[i]? ≠ w[i]? with
    | none =>
      rw [hfind, Option.getD_none] at hi
      simpa using List.find?_eq_none.1 hfind i (List.mem_range.2 hi)
    | some k =>
      rw [hfind, Option.getD_some] at hi
      simpa using (List.find?_range_eq_some.1 hfind).2.2 i hi
  refine ⟨shortest[i]?, fun w hw => ?_⟩
  have hnot := List.any_eq_false.1 hsame w hw
  simpa using Eq.symm (by simpa using hnot)

/-- What the names have in common, as the code finds its length. -/
theorem take_commonLen (hname : name ∈ names) :
    name.take (commonLen names) = sharedPrefix names := by
  have hne := List.ne_nil_of_mem hname
  have hle : (sharedPrefix names).length ≤ commonLen names :=
    length_le_commonLen hname fun w hw => sharedPrefix_le hw
  have hall : ∀ w ∈ names, name.take (commonLen names) = w.take (commonLen names) := by
    intro w hw
    refine List.ext_getElem? fun i => ?_
    rw [List.getElem?_take, List.getElem?_take]
    split
    · obtain ⟨c, hc⟩ := getElem?_eq_of_lt_commonLen ‹_›
      rw [hc name hname, hc w hw]
    · rfl
  have hpre : name.take (commonLen names) <+: sharedPrefix names :=
    (prefix_sharedPrefix_iff hne).2 fun w hw => hall w hw ▸ List.take_prefix _ w
  have hsuf : sharedPrefix names <+: name.take (commonLen names) :=
    List.prefix_take_iff.2 ⟨sharedPrefix_le hname, hle⟩
  exact hpre.eq_of_length_le hsuf.length_le

/-- One call of `microrl_insert_text` inserts its text where all of it fits,
and nothing where it does not. -/
theorem microrlInsertText_inserts (hs : Sane AnyByte s held) (text : List UInt8) :
    ∃ s₁ done, s.microrlInsertText text = some (s₁, done) ∧ Sane AnyByte s₁ held ∧
      Inserts s (fitting (100 - s.cmdlen) text) s₁ ∧
      s₁.cmdlen = s.cmdlen + (fitting (100 - s.cmdlen) text).length := by
  have hle := hs.cmdlen_le
  unfold fitting
  by_cases hroom : s.cmdlen + text.length < 101
  · rw [if_pos (by omega)]
    exact ⟨inserted s text, true, microrlInsertText_eq hs hroom,
      hs.inserted admits_anyByte hroom fun _ _ => trivial, ⟨line_inserted hs, rfl⟩, rfl⟩
  · rw [if_neg (by omega)]
    exact ⟨s, false, microrlInsertText_full hroom, hs, .refl s, rfl⟩

theorem commonLen_eq_length (hname : name ∈ names) :
    commonLen names = (sharedPrefix names).length := by
  rw [← take_commonLen hname, List.length_take]
  refine (Nat.min_eq_left ?_).symm
  by_contra hlt
  -- the name would end where another goes on
  obtain ⟨w, hw, hle⟩ := exists_commonLen_le (List.ne_nil_of_mem hname)
  obtain ⟨c, hc⟩ := getElem?_eq_of_lt_commonLen (Nat.lt_of_not_le hlt)
  have hend := (hc name hname).trans (hc w hw).symm
  rw [List.getElem?_eq_none (Nat.le_refl _), List.getElem?_eq_getElem (by omega)] at hend
  cases hend

theorem insertRest_inserts (hs : Sane AnyByte s held) {argv : List (List UInt8)}
    (hargv : argv.getLast? = some tkn) (hname : name ∈ names) (htkn : ∀ w ∈ names, tkn <+: w) :
    ∃ s₁, s.insertRest argv name (commonLen names) (names.length = 1) = some s₁ ∧
      Sane AnyByte s₁ held ∧ Inserts s (added (100 - s.cmdlen) names tkn) s₁ := by
  have hlen : tkn.length ≤ commonLen names := length_le_commonLen hname htkn
  have hnil : commonLen names = 0 ↔ sharedPrefix names = [] := by
    rw [commonLen_eq_length hname, List.length_eq_zero_iff]
  unfold MicrorlT.insertRest added
  by_cases hzero : commonLen names = 0
  · rw [if_pos hzero, if_pos (hnil.1 hzero)]
    exact ⟨s, rfl, hs, .refl s⟩
  have hrest : (name.drop tkn.length).take (commonLen names - tkn.length) =
      (sharedPrefix names).drop tkn.length := by
    rw [← take_commonLen hname, List.drop_take]
  obtain ⟨s₁, done, hins, hs₁, hinserts, hcmdlen⟩ :=
    microrlInsertText_inserts hs ((sharedPrefix names).drop tkn.length)
  rw [if_neg hzero, if_neg (fun h => hzero (hnil.2 h))]
  simp only [hargv, diff_of_le hlen, hrest, hins, Option.bind_eq_bind, Option.bind_some,
    decide_eq_true_eq]
  by_cases hone : names.length = 1
  · rw [if_pos hone, if_pos hone]
    obtain ⟨s₂, done₂, hins₂, hs₂, hinserts₂, -⟩ := microrlInsertText_inserts hs₁ [32]
    rw [hcmdlen, ← Nat.sub_sub] at hinserts₂
    exact ⟨s₂, by simp [hins₂], hs₂, hinserts.trans hs.cursor_le hinserts₂⟩
  · rw [if_neg hone, if_neg hone]
    exact ⟨s₁, rfl, hs₁, hinserts⟩

/-- Printing has no part in an insertion: what is printed may come before
it, or behind. -/
theorem Inserts.print (h : Inserts s text s') (str : List UInt8) : Inserts s text (s'.print str) :=
  ⟨h.line, h.cursor⟩

/-- **TAB inserts what the names have beyond the last token**, as far as
there is room, and a space behind the only one. -/
theorem getComplite_inserts (hs : Sane AnyByte s held) (htable : s.getCompletion = some keyworld)
    {argv : List (List UInt8)} (hargv : s.completArgv = some argv)
    (hlast : argv.getLast? = some tkn) :
    ∃ s', s.microrlGetComplite = some s' ∧
      Inserts s (added (100 - s.cmdlen) (matching keyworld tkn) tkn) s' := by
  have hcomplet : complet keyworld argv = matching keyworld tkn := by
    rw [complet, hlast]
    rfl
  have htkn : ∀ w ∈ matching keyworld tkn, tkn <+: w := fun w hw =>
    List.isPrefixOf_iff_prefix.1 (List.mem_filter.1 hw).2
  unfold MicrorlT.microrlGetComplite
  simp only [htable, hargv, hcomplet, Option.bind_eq_bind, Option.bind_some]
  cases hfound : matching keyworld tkn with
  | nil => exact ⟨s, rfl, .refl s⟩
  | cons name names =>
    rw [hfound] at htkn
    have hone : names.isEmpty = decide ((name :: names).length = 1) := by
      cases names <;> rfl
    have hsame : ∀ t : MicrorlT, t = (if names.isEmpty then s else s.printNames (name :: names)) →
        Sane AnyByte t held ∧ t.cmdlen = s.cmdlen ∧
          ∀ {text : List UInt8} {u : MicrorlT}, Inserts t text u → Inserts s text u := by
      rintro t rfl
      split
      · exact ⟨hs, rfl, id⟩
      · exact ⟨((hs.print _).print _).print _ |>.print _, rfl, fun h => ⟨h.line, h.cursor⟩⟩
    obtain ⟨ht, hcmdlen, hback⟩ := hsame _ rfl
    obtain ⟨s₁, hins, hs₁, hinserts⟩ :=
      insertRest_inserts ht hlast (List.mem_cons_self (a := name) (l := names)) htkn
    rw [hcmdlen] at hinserts
    rw [← commonLen_eq, ← hone] at hins
    have hprint := terminalPrintLine_eq (hs₁.print (resetSeq s₁.promptLen)) (Nat.zero_le _) s₁.cursor
    refine ⟨_, ?_, ((hback hinserts).print (resetSeq s₁.promptLen)).print
      (lineSeq (s₁.print (resetSeq s₁.promptLen)) 0 s₁.cursor)⟩
    simp only [hins, Option.bind_some]
    rw [terminalResetCursor_eq hs₁.prompt_lt, Option.bind_some, hprint]

/-! ## The word and the token -/

/-- The last token: nothing behind a zero, and otherwise the word with
what stands behind the cursor. -/
def MicrorlT.token (s : MicrorlT) : List UInt8 :=
  if s.cmdline.byte (s.cursor - 1) = 0 then [] else s.wordBefore ++ s.cmdline.cstr s.cursor

/-- The word in front of the cursor, by where it starts. -/
theorem wordBefore_eq (hs : Sane AnyByte s held) {j : ℕ} (hj : j ≤ s.cursor)
    (hrun : ∀ i, j ≤ i → i < s.cursor → s.cmdline.byte i ≠ 0)
    (hstart : j = 0 ∨ s.cmdline.byte (j - 1) = 0) :
    s.wordBefore = s.cmdline.slice j (s.cursor - j) := by
  have hall : ∀ c ∈ (s.cmdline.slice j (s.cursor - j)).reverse, decide (c ≠ 0) = true := by
    intro c hc
    obtain ⟨k, hk, rfl⟩ := Block.mem_slice.1 (List.mem_reverse.1 hc)
    simpa using hrun (j + k) (by omega) (by omega)
  have hfront : (s.cmdline.slice 0 j).reverse.takeWhile (· ≠ 0) = [] := by
    rcases hstart with rfl | hzero
    · rfl
    · cases j with
      | zero => rfl
      | succ j =>
        rw [Block.slice_succ, List.reverse_append]
        simpa using hzero
  rw [MicrorlT.wordBefore, ← slice_eq_take_line hs.cursor_le,
    show s.cursor = j + (s.cursor - j) by omega, Block.slice_add, Nat.zero_add, List.rtakeWhile,
    List.reverse_append, List.takeWhile_append_of_pos hall, hfront, List.append_nil,
    List.reverse_reverse, Nat.add_sub_cancel_left]

theorem wordBefore_eq_nil (hs : Sane AnyByte s held) (hzero : s.cmdline.byte (s.cursor - 1) = 0) :
    s.wordBefore = [] := by
  rw [wordBefore_eq hs (Nat.le_refl _) (by omega) (Or.inr hzero), Nat.sub_self]
  rfl

/-- **The last token** of `split`, read as a string, which goes on behind
the cursor where the word does. -/
theorem exists_token (hs : Sane AnyByte s held) (hpos : 0 < s.cursor)
    (hwords : (s.cmdline.starts s.cursor).length < commandTokenNmb) :
    ∃ argv, s.completArgv = some argv ∧ argv.getLast? = some s.token := by
  have hcur := hs.cursor_le
  have hle := hs.cmdlen_le
  refine ⟨_, completArgv_of_words hs hpos hwords, ?_⟩
  unfold MicrorlT.token
  by_cases hlast : s.cmdline.byte (s.cursor - 1) = 0
  · rw [if_pos hlast, if_pos hlast, List.getLast?_concat]
  · obtain ⟨j, hj, hst, hrun⟩ := Block.exists_start hlast
    rw [if_neg hlast, if_neg hlast, Block.starts_eq_concat (show j < s.cursor by omega) hst
      (fun i hi hlt => hrun i hi (by omega)), List.map_append, List.map_singleton, List.getLast?_concat,
      wordBefore_eq hs (show j ≤ s.cursor by omega) (fun i hi hlt => hrun i hi (by omega))
        (Block.isStart_iff.1 hst).2]
    -- the string at the start goes over the cursor
    have hall : ∀ c ∈ s.cmdline.slice j (s.cursor - j), decide (c ≠ 0) = true := by
      intro c hc
      obtain ⟨k, hk, rfl⟩ := Block.mem_slice.1 hc
      simpa using hrun (j + k) (by omega) (by omega)
    rw [Block.cstr, show commandLineLen - j = s.cursor - j + (commandLineLen - s.cursor) by
      rw [commandLineLen]; omega, Block.slice_add, List.takeWhile_append_of_pos hall,
      show j + (s.cursor - j) = s.cursor by omega, Block.cstr]

/-- At the end of a word the token is the word. -/
theorem token_of_end (hs : Sane AnyByte s held)
    (hend : s.cmdline.byte (s.cursor - 1) = 0 ∨ s.cmdline.byte s.cursor = 0) :
    s.token = s.wordBefore := by
  unfold MicrorlT.token
  split
  · exact (wordBefore_eq_nil hs ‹_›).symm
  · have hzero := hend.resolve_left ‹_›
    have hcur := hs.cursor_le
    have hle := hs.cmdlen_le
    have hcstr : s.cmdline.cstr s.cursor = [] := by
      have hlen := (Block.length_cstr_le_iff (Nat.le_refl s.cursor)
        (show s.cursor < commandLineLen by rw [commandLineLen]; omega)).2
          ⟨s.cursor, Nat.le_refl _, Nat.le_refl _, hzero⟩
      exact List.length_eq_zero_iff.1 (by omega)
    rw [hcstr, List.append_nil]

/-! ## Where TAB completes the word -/

/-- The names differ, or are one name, registered once and not empty. -/
def Unambiguous (names : List (List UInt8)) : Prop :=
  ∀ m ∈ names, (∀ n ∈ names, n = m) → names = [m] ∧ m ≠ []

/-- Two of the names differ, so their longest common prefix is not a name in
full. -/
def Differ (names : List (List UInt8)) : Prop := ∃ m ∈ names, ∃ n ∈ names, m ≠ n

instance : DecidablePred Unambiguous := fun _ => inferInstanceAs (Decidable (∀ _ ∈ _, _))

instance : DecidablePred Differ := fun _ => inferInstanceAs (Decidable (∃ _ ∈ _, _))

/-- **Where TAB completes the word.** Inside an escape sequence it does
nothing, so nothing may be due. At the end of a word, or behind a zero,
the names must not be one name registered twice, nor one empty name.
Inside a word there must be no name, or several that have beyond the
word what TAB adds to the whole of it. -/
def Completable (keyworld : List (List UInt8)) (s : MicrorlT) : Prop :=
  if s.escape then completion keyworld s.wordBefore = []
  else if s.cmdline.byte (s.cursor - 1) = 0 ∨ s.cmdline.byte s.cursor = 0 then
    Unambiguous (matching keyworld s.wordBefore)
  else matching keyworld s.wordBefore = [] ∨ Differ (matching keyworld s.wordBefore) ∧
    (added (100 - s.cmdlen) (matching keyworld s.token) s.token).map zeroSpace =
      ((sharedPrefix (matching keyworld s.wordBefore)).drop s.wordBefore.length).map zeroSpace

instance (keyworld : List (List UInt8)) (s : MicrorlT) : Decidable (Completable keyworld s) :=
  inferInstanceAs (Decidable (ite _ _ _))

theorem mem_matching {w : List UInt8} : name ∈ matching keyworld w ↔ name ∈ keyworld ∧ w <+: name := by
  rw [matching, List.mem_filter, List.isPrefixOf_iff_prefix]

theorem matching_subset {w : List UInt8} (h : w <+: tkn) :
    matching keyworld tkn ⊆ matching keyworld w := by
  intro name hname
  obtain ⟨hmem, hpre⟩ := mem_matching.1 hname
  exact mem_matching.2 ⟨hmem, h.trans hpre⟩

theorem completion_of_nil {w : List UInt8} (h : matching keyworld w = []) :
    completion keyworld w = [] := by
  rw [completion, h]

theorem completion_of_one {w : List UInt8} (hne : matching keyworld w ≠ [])
    (h : ∀ n ∈ matching keyworld w, n = name) :
    completion keyworld w = name.drop w.length ++ [32] := by
  unfold completion
  cases hnames : matching keyworld w with
  | nil => exact absurd hnames hne
  | cons first names =>
    rw [hnames] at h
    obtain rfl := h first List.mem_cons_self
    exact if_pos fun n hn => h n (List.mem_cons_of_mem _ hn)

theorem completion_of_differ {w : List UInt8} (h : Differ (matching keyworld w)) :
    completion keyworld w = (sharedPrefix (matching keyworld w)).drop w.length := by
  obtain ⟨m, hm, n, hn, hne⟩ := h
  unfold completion
  cases hnames : matching keyworld w with
  | nil =>
    rw [hnames] at hm
    cases hm
  | cons first names =>
    rw [hnames] at hm hn
    refine if_neg fun hall => hne ?_
    have hfirst : ∀ u ∈ first :: names, u = first := by
      intro u hu
      rcases List.mem_cons.1 hu with rfl | hu
      · rfl
      · exact hall u hu
    rw [hfirst m hm, hfirst n hn]

theorem length_added_le (room : ℕ) (names : List (List UInt8)) (tkn : List UInt8) :
    (added room names tkn).length ≤ ((sharedPrefix names).drop tkn.length).length + 1 := by
  have hfit : ∀ (room : ℕ) (text : List UInt8), (fitting room text).length ≤ text.length := by
    intro room text
    unfold fitting
    split <;> simp
  unfold added
  have hrest := hfit room ((sharedPrefix names).drop tkn.length)
  have hspace := hfit (room - (fitting room ((sharedPrefix names).drop tkn.length)).length) [32]
  split
  · simp
  · split
    · rw [List.length_append]
      exact Nat.add_le_add hrest hspace
    · exact hrest.trans (Nat.le_succ _)

/-- The names that begin with a word are none, one, or differ. -/
theorem matching_cases (names : List (List UInt8)) :
    names = [] ∨ (∃ m, names ≠ [] ∧ ∀ n ∈ names, n = m) ∨ Differ names := by
  cases names with
  | nil => exact Or.inl rfl
  | cons m names =>
    by_cases h : Differ (m :: names)
    · exact Or.inr (Or.inr h)
    · refine Or.inr (Or.inl ⟨m, List.cons_ne_nil _ _, fun n hn => ?_⟩)
      by_contra hne
      exact h ⟨n, hn, m, List.mem_cons_self, hne⟩

/-- At the end of a word TAB adds what is due exactly where the names are
not ambiguous. -/
theorem added_word_iff {w : List UInt8} (hroom : (completion keyworld w).length ≤ room) :
    (added room (matching keyworld w) w).map zeroSpace = (completion keyworld w).map zeroSpace ↔
      Unambiguous (matching keyworld w) := by
  rcases matching_cases (matching keyworld w) with hnil | ⟨m, hne, hall⟩ | hdiffer
  · rw [completion_of_nil hnil, hnil]
    exact iff_of_true rfl fun m hm => by cases hm
  · have hshared := sharedPrefix_eq_of_forall hne hall
    rw [completion_of_one hne hall] at hroom ⊢
    rw [List.length_append, List.length_singleton] at hroom
    have hfit : fitting room (m.drop w.length) = m.drop w.length := if_pos (by omega)
    obtain ⟨n, hn⟩ := List.exists_mem_of_ne_nil _ hne
    have hm : m ∈ matching keyworld w := hall n hn ▸ hn
    by_cases hone : (matching keyworld w).length = 1
    · obtain ⟨n, hn⟩ := List.length_eq_one_iff.1 hone
      obtain rfl : n = m := hall n (by simp [hn])
      by_cases hempty : n = []
      · -- one empty name: a space is due, and none is inserted
        refine iff_of_false (fun h => ?_) fun h => (h n hm hall).2 hempty
        have hlen := congrArg List.length h
        simp [added, hshared, hempty] at hlen
      · refine iff_of_true ?_ fun _ _ hall' => ?_
        · have hspace : fitting (room - (n.drop w.length).length) [32] = [32] :=
            if_pos (by rw [List.length_singleton]; omega)
          simp only [added, hshared, hempty, if_false, hone, if_true, hfit, hspace]
        · obtain rfl := hall' n hm
          exact ⟨hn, hempty⟩
    · refine iff_of_false (fun h => ?_) fun h => hone (by rw [(h m hm hall).1]; rfl)
      have hlen := congrArg List.length h
      simp only [added, hshared, hone, if_false, hfit, List.length_map, List.length_append,
        List.length_singleton] at hlen
      split at hlen
      · simp at hlen
      · omega
  · obtain ⟨m, hm, n, hn, hmn⟩ := hdiffer
    rw [completion_of_differ ⟨m, hm, n, hn, hmn⟩] at hroom ⊢
    have hone : (matching keyworld w).length ≠ 1 := by
      intro h
      obtain ⟨u, hu⟩ := List.length_eq_one_iff.1 h
      rw [hu, List.mem_singleton] at hm hn
      exact hmn (hm.trans hn.symm)
    refine iff_of_true ?_ fun u _ hall => absurd ((hall m hm).trans (hall n hn).symm) hmn
    have hfit : fitting room ((sharedPrefix (matching keyworld w)).drop w.length) =
        (sharedPrefix (matching keyworld w)).drop w.length := if_pos hroom
    simp only [added, hone, if_false, hfit]
    split
    · rw [‹sharedPrefix _ = []›]
      simp
    · rfl

/-- Inside one. -/
theorem added_token_iff {w : List UInt8} (hpre : w <+: tkn) (hlt : w.length < tkn.length) :
    (added room (matching keyworld tkn) tkn).map zeroSpace =
        (completion keyworld w).map zeroSpace ↔
      matching keyworld w = [] ∨ Differ (matching keyworld w) ∧
        (added room (matching keyworld tkn) tkn).map zeroSpace =
          ((sharedPrefix (matching keyworld w)).drop w.length).map zeroSpace := by
  have hsub : matching keyworld tkn ⊆ matching keyworld w := matching_subset hpre
  rcases matching_cases (matching keyworld w) with hnil | ⟨m, hne, hall⟩ | hdiffer
  · rw [hnil] at hsub
    rw [completion_of_nil hnil, List.subset_nil.1 hsub]
    exact iff_of_true rfl (Or.inl hnil)
  · -- the rest of the name is longer behind a part of the word than behind all of it
    refine iff_of_false (fun h => ?_) ?_
    · have hlen := congrArg List.length h
      rw [List.length_map, List.length_map, completion_of_one hne hall, List.length_append,
        List.length_singleton, List.length_drop] at hlen
      have hle := length_added_le room (matching keyworld tkn) tkn
      rcases List.eq_nil_or_concat (matching keyworld tkn) with hnone | ⟨init, n, hsome⟩
      · rw [hnone] at hlen
        have hzero : (added room [] tkn).length = 0 := rfl
        omega
      · have hmem : n ∈ matching keyworld tkn := by simp [hsome]
        have hshared := sharedPrefix_eq_of_forall (List.ne_nil_of_mem hmem)
          fun v hv => hall v (hsub hv)
        have hpre' : tkn <+: m := hall n (hsub hmem) ▸ (mem_matching.1 hmem).2
        have htkn := hpre'.length_le
        rw [hshared, List.length_drop] at hle
        omega
    · rintro (hnil | ⟨⟨u, hu, v, hv, huv⟩, -⟩)
      · exact hne hnil
      · exact huv ((hall u hu).trans (hall v hv).symm)
  · rw [completion_of_differ hdiffer, and_iff_right hdiffer, or_iff_right]
    rintro hnil
    obtain ⟨u, hu, -⟩ := hdiffer
    rw [hnil] at hu
    cases hu

theorem length_starts_cursor_le (hs : Sane AnyByte s held) :
    (s.cmdline.starts s.cursor).length ≤ s.words.length := by
  rw [length_words, Block.starts, Block.starts,
    Block.startsIn_append (Nat.zero_le s.cursor) hs.cursor_le, List.length_append]
  exact Nat.le_add_right _ _

/-- Inside an escape sequence TAB only ends the sequence, and the line
stays. -/
theorem microrlInsertChar_tab_escape (hesc : s.escape = true) :
    s.microrlInsertChar 9 = some { s with escape := false } := by
  have hproc : s.escapeProcess 9 = some (s, true) := by
    simp [MicrorlT.escapeProcess]
  unfold MicrorlT.microrlInsertChar
  rw [hesc, if_pos rfl, hproc]
  rfl

/-- **TAB in a state in range** completes the word exactly where
`Completable` says. -/
theorem completes_iff_of_sane (hs : Sane AnyByte s held) (htable : s.getCompletion = some keyworld)
    (hpos : 0 < s.cursor) (hwords : s.words.length < commandTokenNmb)
    (hroom : s.cmdlen + (completion keyworld s.wordBefore).length ≤ 100) :
    Completes keyworld s ↔ Completable keyworld s := by
  unfold Completable
  cases hesc : s.escape with
  | true =>
    rw [if_pos rfl]
    constructor
    · rintro ⟨s', hkey, hinserts⟩
      obtain rfl := Option.some.inj ((microrlInsertChar_tab_escape hesc).symm.trans hkey)
      have hcursor : s.cursor = s.cursor + _ := hinserts.cursor
      exact List.length_eq_zero_iff.1 (by omega)
    · intro hnil
      refine ⟨_, microrlInsertChar_tab_escape hesc, ?_⟩
      rw [hnil]
      exact ⟨(Inserts.refl s).line, rfl⟩
  | false =>
    rw [if_neg Bool.false_ne_true]
    obtain ⟨argv, hargv, hlast⟩ := exists_token hs hpos ((length_starts_cursor_le hs).trans_lt hwords)
    obtain ⟨s', hkey, hinserts⟩ := getComplite_inserts hs htable hargv hlast
    rw [← microrlInsertChar_tab hesc] at hkey
    -- what is inserted, and what is due
    have hiff : Completes keyworld s ↔
        (added (100 - s.cmdlen) (matching keyworld s.token) s.token).map zeroSpace =
          (completion keyworld s.wordBefore).map zeroSpace := by
      constructor
      · rintro ⟨t, ht, hdue⟩
        obtain rfl := Option.some.inj (hkey.symm.trans ht)
        exact hinserts.unique hdue
      · intro heq
        exact ⟨s', hkey, hinserts.of_map heq⟩
    rw [hiff]
    by_cases hend : s.cmdline.byte (s.cursor - 1) = 0 ∨ s.cmdline.byte s.cursor = 0
    · rw [if_pos hend, token_of_end hs hend]
      exact added_word_iff (by omega)
    · rw [if_neg hend]
      obtain ⟨hprev, hnext⟩ := not_or.1 hend
      have htoken : s.token = s.wordBefore ++ s.cmdline.cstr s.cursor := if_neg hprev
      have hcur := hs.cursor_le
      have hle := hs.cmdlen_le
      have hlong : 0 < (s.cmdline.cstr s.cursor).length := by
        by_contra hzero
        have hstop : s.cursor + (s.cmdline.cstr s.cursor).length ≤ s.cursor := by omega
        obtain ⟨k, hk, hk', hbyte⟩ := (Block.length_cstr_le_iff (Nat.le_refl s.cursor)
          (show s.cursor < commandLineLen by rw [commandLineLen]; omega)).1 hstop
        rw [show k = s.cursor by omega] at hbyte
        exact hnext hbyte
      refine added_token_iff (htoken ▸ List.prefix_append _ _) ?_
      rw [htoken, List.length_append]
      omega

/-- **TAB completes the word in front of the cursor**, and leaves everything
else alone, exactly where `Completable` says: at the end of a word but for a
name registered twice or an empty one, inside a word only where the names
make no difference. The state is any that keys from the start lead to, with
a byte in front of the cursor, fewer than ten words, and room for what is
due. -/
theorem tab_completes_iff (keyworld : List (List UInt8)) (execute echo : Bool) (bs : List UInt8)
    {s : MicrorlT}
    (hrun : run MicrorlT.microrlInsertChar (begun (some keyworld) execute echo) bs = some s)
    (hpos : 0 < s.cursor) (hwords : s.words.length < commandTokenNmb)
    (hroom : s.cmdlen + (completion keyworld s.wordBefore).length ≤ commandLineLen - 1) :
    Completes keyworld s ↔ Completable keyworld s := by
  obtain ⟨held, hs, hset⟩ := sane_of_run admits_anyByte (sane_begun (some keyworld) execute echo)
    (namesAdmitted_anyByte _) hrun
  have htable : s.getCompletion = some keyworld := congrArg (fun x => x.2.2.2.1) hset
  exact completes_iff_of_sane hs htable hpos hwords hroom

/-- "cl" in front of "time": TAB makes "clear " of it. -/
theorem tab_completes_front :
    ∃ s, run MicrorlT.microrlInsertChar (begun (some Microrl.keyworld) true false)
      (ascii "cl time" ++ [2, 2, 2, 2, 2]) = some s ∧ Completes Microrl.keyworld s := by
  have hline : (run MicrorlT.microrlInsertChar (begun (some Microrl.keyworld) true false)
      (ascii "cl time" ++ [2, 2, 2, 2, 2])).map (fun s => decide (0 < s.cursor ∧
        s.words.length < commandTokenNmb ∧
        s.cmdlen + (completion Microrl.keyworld s.wordBefore).length ≤ commandLineLen - 1 ∧
        Completable Microrl.keyworld s)) = some true := by
    decide +kernel
  obtain ⟨s, hrun, hs⟩ := Option.map_eq_some_iff.1 hline
  obtain ⟨hpos, hwords, hroom, hcompletable⟩ := of_decide_eq_true hs
  exact ⟨s, hrun, (tab_completes_iff Microrl.keyworld true false _ hrun hpos hwords hroom).2
    hcompletable⟩

/-- **A TAB inside a word looks for the whole word.** With the cursor
between the letters of "cr" it leaves the line alone, while the word in
front of it, "c", begins one name, "clear". -/
theorem tab_inside_word : ¬ ∀ (keyworld : List (List UInt8)) (execute echo : Bool)
    (bs : List UInt8) (s : MicrorlT), 11 ∉ bs →
    run MicrorlT.microrlInsertChar (begun (some keyworld) execute echo) bs = some s →
    0 < s.cursor → s.words.length < commandTokenNmb →
    s.cmdlen + (completion keyworld s.wordBefore).length ≤ commandLineLen - 1 →
    Completes keyworld s := by
  intro h
  have hline : (run MicrorlT.microrlInsertChar (begun (some Microrl.keyworld) true false)
      (ascii "cr" ++ [2])).map (fun s => decide (s.cursor = 1 ∧ s.cmdlen = 2 ∧
        s.words = [ascii "cr"] ∧ completion Microrl.keyworld s.wordBefore = ascii "lear " ∧
        (s.microrlInsertChar 9).map (fun s' => s'.cursor) = some 1)) = some true := by
    decide +kernel
  obtain ⟨s, hrun, hs⟩ := Option.map_eq_some_iff.1 hline
  obtain ⟨hcursor, hcmdlen, hwords, hdue, hkey⟩ := of_decide_eq_true hs
  obtain ⟨s', hs', hinserts⟩ := h Microrl.keyworld true false _ s (by decide) hrun (by omega)
    (by rw [hwords]; decide) (by rw [hcmdlen, hdue]; decide)
  -- five bytes are due, and the cursor has not moved
  have hmoved := hinserts.cursor
  rw [hs', Option.map_some, Option.some.injEq] at hkey
  rw [hkey, hcursor, hdue] at hmoved
  exact absurd hmoved (by decide)

end Microrl

end SlipBoard
