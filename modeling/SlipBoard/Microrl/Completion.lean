import SlipBoard.Common.Transition
import SlipBoard.Microrl.Keys
/-!
# Line editor — TAB

The names `complet` finds have the last token in front, so what they
have in common is at least as long (`length_le_commonLen`), and the rest
of a name is what TAB inserts, where there is room for it. Whether it is
inserted or not, the line is printed again from the prompt on
(`getComplite_effect`). TAB answers where the cursor is behind a
character and fewer than ten words are in front of it
(`completArgv_eq`): elsewhere the code reads `cmdline [-1]` or
stores a token `tkn_arr` has no cell for.
-/

namespace SlipBoard

namespace Microrl

open Transition

variable {Q : UInt8 → Prop} {s s' : MicrorlT} {held : List (List UInt8)}
  {name tkn : List UInt8} {names keyworld argv : List (List UInt8)}

/-! ## What the names have in common -/

/-- The first name of least length is one of them. -/
theorem shortest_mem (names : List (List UInt8)) (w : List UInt8) :
    names.foldl (fun m w => if w.length < m.length then w else m) w ∈ w :: names := by
  induction names generalizing w with
  | nil => exact List.mem_singleton.2 rfl
  | cons v names ih =>
    rw [List.foldl_cons]
    rcases List.mem_cons.1 (ih (if v.length < w.length then v else w)) with h | h
    · rw [h]
      split <;> simp
    · exact List.mem_cons_of_mem _ (List.mem_cons_of_mem _ h)

theorem foldl_shortest_mem (hne : names ≠ []) :
    names.foldl (fun m w => if w.length < m.length then w else m) (names.headD []) ∈ names := by
  cases names with
  | nil => exact absurd rfl hne
  | cons w ws =>
    rw [List.headD_cons, List.foldl_cons, if_neg (Nat.lt_irrefl _)]
    exact shortest_mem ws w

/-- Some name has all that they have in common. -/
theorem exists_commonLen_le (hne : names ≠ []) : ∃ w ∈ names, commonLen names ≤ w.length := by
  refine ⟨_, foldl_shortest_mem hne, ?_⟩
  simp only [commonLen]
  generalize names.foldl (fun m w => if w.length < m.length then w else m) (names.headD []) = shortest
  cases hfind : (List.range shortest.length).find? fun i =>
      names.any fun w => shortest[i]? ≠ w[i]? with
  | none => exact Nat.le_refl _
  | some i => exact (List.mem_range.1 (List.mem_of_find?_eq_some hfind)).le

/-- A token in front of every name is in front of what they have in
common. -/
theorem length_le_commonLen (hname : name ∈ names) (h : ∀ w ∈ names, tkn <+: w) :
    tkn.length ≤ commonLen names := by
  have hshort := foldl_shortest_mem (List.ne_nil_of_mem hname)
  simp only [commonLen]
  revert hshort
  generalize names.foldl (fun m w => if w.length < m.length then w else m) (names.headD []) = shortest
  intro hshort
  cases hfind : (List.range shortest.length).find? fun i =>
      names.any fun w => shortest[i]? ≠ w[i]? with
  | none => exact (h shortest hshort).length_le
  | some i =>
    rw [Option.getD_some]
    -- at a position inside the token no two names differ
    by_contra hlt
    have hi : i < tkn.length := Nat.lt_of_not_le hlt
    have hdiff := List.find?_some hfind
    obtain ⟨w, hw, hne⟩ := List.any_eq_true.1 hdiff
    have hat : ∀ v ∈ names, v[i]? = tkn[i]? := by
      intro v hv
      obtain ⟨rest, rfl⟩ := h v hv
      exact List.getElem?_append_left hi
    rw [hat shortest hshort, hat w hw] at hne
    simp at hne

theorem mem_complet (h : name ∈ complet keyworld argv) :
    name ∈ keyworld ∧ ∀ tkn, argv.getLast? = some tkn → tkn <+: name := by
  unfold complet at h
  cases hlast : argv.getLast? with
  | none =>
    rw [hlast] at h
    exact ⟨h, fun tkn htkn => by cases htkn⟩
  | some bit =>
    rw [hlast] at h
    obtain ⟨hmem, hpre⟩ := List.mem_filter.1 h
    refine ⟨hmem, fun tkn htkn => ?_⟩
    rw [← Option.some.inj htkn]
    exact List.isPrefixOf_iff_prefix.1 hpre

/-! ## TAB -/

/-- Names whose characters a line may hold once their spaces are stored as
zeros. -/
def NamesAdmitted (Q : UInt8 → Prop) (s : MicrorlT) : Prop :=
  ∀ keyworld ∈ s.getCompletion, ∀ name ∈ keyworld, ∀ c ∈ name, Q (zeroSpace c)

/-- Text is inserted where there is room, and otherwise not. -/
theorem microrlInsertText_leaves (hQ : Admits Q) (hs : Sane Q s held) {text : List UInt8}
    (htext : ∀ c ∈ text, Q (zeroSpace c)) :
    ∃ s' done, s.microrlInsertText text = some (s', done) ∧ Leaves Q s [] s' held := by
  by_cases hroom : s.cmdlen + text.length < 101
  · exact ⟨inserted s text, true, microrlInsertText_eq hs hroom, Leaves.inserted hQ hs hroom htext⟩
  · exact ⟨s, false, microrlInsertText_full hroom, hs.leaves⟩

/-- What TAB inserts. Without a token there is none to go on from. -/
theorem insertRest_leaves (hQ : Admits Q) (hs : Sane Q s held) (hname : ∀ c ∈ name, Q (zeroSpace c))
    {len : ℕ} (hlen : ∀ tkn, argv.getLast? = some tkn → tkn.length ≤ len) (only : Bool) :
    (∃ s', s.insertRest argv name len only = some s' ∧ Leaves Q s [] s' held) ∨
      s.insertRest argv name len only = none ∧ argv = [] := by
  unfold MicrorlT.insertRest
  by_cases hzero : len = 0
  · rw [if_pos hzero]
    exact Or.inl ⟨s, rfl, hs.leaves⟩
  rw [if_neg hzero]
  cases hlast : argv.getLast? with
  | none => exact Or.inr ⟨rfl, List.getLast?_eq_none_iff.1 hlast⟩
  | some tkn =>
    have hrest : ∀ c ∈ (name.drop tkn.length).take (len - tkn.length), Q (zeroSpace c) :=
      fun c hc => hname c (List.mem_of_mem_drop (List.mem_of_mem_take hc))
    obtain ⟨s₁, done, hins, hleaves⟩ := microrlInsertText_leaves hQ hs hrest
    simp only [diff_of_le (hlen tkn hlast), hins, Option.bind_eq_bind, Option.bind_some]
    cases only with
    | false => exact Or.inl ⟨s₁, rfl, hleaves⟩
    | true =>
      have hspace : ∀ c ∈ [(32 : UInt8)], Q (zeroSpace c) := by
        intro c hc
        rw [List.mem_singleton.1 hc]
        exact hQ.zero
      obtain ⟨s₂, done₂, hins₂, hleaves₂⟩ := microrlInsertText_leaves hQ hleaves.sane hspace
      exact Or.inl ⟨s₂, by simp [hins₂], hleaves.trans hleaves₂⟩

/-- Where there are several names they are listed, below a new prompt. -/
theorem list_leaves (hs : Sane Q s held) (name : List UInt8) (names : List (List UInt8))
    (hsub : ∃ keyworld ∈ s.getCompletion, name :: names ⊆ keyworld) :
    ∃ lead, Lead s 0 (lead ++ resetSeq s.promptLen) ∧
      Leaves Q s lead (if names.isEmpty then s else s.printNames (name :: names)) held := by
  split
  · exact ⟨[], Lead.reset, hs.leaves⟩
  · refine ⟨_, Lead.names (name :: names) hsub, ?_⟩
    have hprint := hs.leaves.print (endl ++ ((name :: names).flatMap fun name => name ++ [32]) ++
      endl ++ s.promptStr)
    simpa [MicrorlT.printNames, MicrorlT.terminalNewline, MicrorlT.printPrompt] using hprint

/-- **TAB**, where it answers, has one of the effects. It does not
answer only where `split` leaves no token to complete. -/
theorem getComplite_effect (hQ : Admits Q) (hs : Sane Q s held) (hnames : NamesAdmitted Q s) :
    (∃ s' str, s.microrlGetComplite = some s' ∧ Effect Q held s str s') ∨
      s.microrlGetComplite = none ∧ (s.completArgv = none ∨ s.completArgv = some []) := by
  unfold MicrorlT.microrlGetComplite
  cases htable : s.getCompletion with
  | none => exact Or.inl ⟨s, [], rfl, hs.stay⟩
  | some keyworld =>
    cases hargv : s.completArgv with
    | none => exact Or.inr ⟨rfl, Or.inl rfl⟩
    | some argv =>
      simp only [Option.bind_eq_bind, Option.bind_some]
      cases hfound : complet keyworld argv with
      | nil => exact Or.inl ⟨s, [], rfl, hs.stay⟩
      | cons name names =>
        have hmem : ∀ w ∈ name :: names, w ∈ keyworld ∧
            ∀ tkn, argv.getLast? = some tkn → tkn <+: w :=
          fun w hw => mem_complet (by rwa [hfound])
        have hfirst := hmem name List.mem_cons_self
        obtain ⟨lead, hlead, hlist⟩ := list_leaves hs name names
          ⟨keyworld, htable, fun w hw => (hmem w hw).1⟩
        have hlen : ∀ tkn, argv.getLast? = some tkn → tkn.length ≤
            if names.isEmpty then name.length else commonLen (name :: names) := by
          intro tkn hlast
          split
          · exact (hfirst.2 tkn hlast).length_le
          · exact length_le_commonLen List.mem_cons_self fun w hw => (hmem w hw).2 tkn hlast
        rcases insertRest_leaves hQ hlist.sane (hnames keyworld htable name hfirst.1) hlen
            names.isEmpty with ⟨s₁, hins, hleaves⟩ | ⟨hins, hnil⟩
        · have hall := hlist.trans hleaves
          rw [List.append_nil] at hall
          have hreset := hall.print (resetSeq s₁.promptLen)
          rw [hall.promptLen] at hreset
          refine Or.inl ⟨_, _, ?_, hlead.effect hreset (Nat.zero_le _) rfl⟩
          simp only [hins, Option.bind_some]
          rw [terminalResetCursor_eq hleaves.sane.prompt_lt, Option.bind_some, hall.promptLen,
            terminalPrintLine_eq hreset.sane (Nat.zero_le _)]
          rfl
        · refine Or.inr ⟨?_, Or.inr (by rw [hnil])⟩
          simp only [hins, Option.bind_none]

/-! ## Where TAB answers -/

/-- The tokens, with fewer than ten words in front: behind a zero the
one to complete is the empty one. -/
theorem completArgv_of_words (hs : Sane Q s held) (hpos : 0 < s.cursor)
    (hwords : (s.cmdline.starts s.cursor).length < commandTokenNmb) :
    s.completArgv = some (if s.cmdline.byte (s.cursor - 1) = 0
      then (s.cmdline.starts s.cursor).map s.cmdline.cstr ++ [[]]
      else (s.cmdline.starts s.cursor).map s.cmdline.cstr) := by
  have hcur := hs.cursor_le
  have hle := hs.cmdlen_le
  have hsplit : split s.cmdline s.cursor =
      some (some (s.cmdline.starts s.cursor).length, s.cmdline.starts s.cursor) := by
    rw [split_eq (hcur.trans hle), answer, if_pos hwords]
  have hstr : (s.cmdline.starts s.cursor).mapM s.cmdline.str =
      some ((s.cmdline.starts s.cursor).map s.cmdline.cstr) :=
    mapM_str (str_of_mem_starts hs.guard (hcur.trans hle))
  have hload : s.cmdline.load (s.cursor - 1) = some (s.cmdline.byte (s.cursor - 1)) :=
    Block.load_of_lt (by rw [commandLineLen]; omega)
  simp only [MicrorlT.completArgv, hsplit, diff_of_le (Nat.succ_le_of_lt hpos), hload, hstr,
    Option.bind_eq_bind, Option.bind_some]
  rfl

/-- **Behind a character, and with fewer than ten words in front**, there
is a token to complete. -/
theorem completArgv_eq (hs : Sane Q s held) (hpos : 0 < s.cursor)
    (hwords : (s.cmdline.words s.cursor).length < commandTokenNmb) :
    ∃ argv, s.completArgv = some argv ∧ argv ≠ [] := by
  rw [Block.words, List.length_map] at hwords
  refine ⟨_, completArgv_of_words hs hpos hwords, ?_⟩
  by_cases hlast : s.cmdline.byte (s.cursor - 1) = 0
  · rw [if_pos hlast]
    simp
  · rw [if_neg hlast]
    obtain ⟨j, hj, hst, -⟩ := Block.exists_start hlast
    refine List.ne_nil_of_mem (List.mem_map_of_mem (a := j) ?_)
    exact Block.mem_startsIn.2 ⟨⟨Nat.zero_le j, by omega⟩, hst⟩

theorem microrlInsertChar_tab (hesc : s.escape = false) :
    s.microrlInsertChar 9 = s.microrlGetComplite := by
  unfold MicrorlT.microrlInsertChar
  rw [hesc]
  rfl

theorem NamesAdmitted.of_settings (hnames : NamesAdmitted Q s) (h : s'.settings = s.settings) :
    NamesAdmitted Q s' := by
  have htable : s'.getCompletion = s.getCompletion := congrArg (fun x => x.2.2.2.1) h
  rwa [NamesAdmitted, htable]

/-- **Any byte that answers**, TAB and Enter included, leaves an editor in
range. -/
theorem sane_of_microrlInsertChar {ch : UInt8} (hQ : Admits Q) (hs : Sane Q s held)
    (hnames : NamesAdmitted Q s) (h : s.microrlInsertChar ch = some s') :
    ∃ held', Sane Q s' held' ∧ s'.settings = s.settings := by
  by_cases htab : s.escape = false ∧ ch = 9
  · obtain ⟨hesc, rfl⟩ := htab
    rw [microrlInsertChar_tab hesc] at h
    rcases getComplite_effect hQ hs hnames with ⟨t, str, hkey, heffect⟩ | ⟨hkey, -⟩
    · obtain rfl := Option.some.inj (hkey.symm.trans h)
      exact ⟨held, heffect.leaves.sane, heffect.leaves.settings⟩
    · rw [hkey] at h
      cases h
  · obtain ⟨t, held', hkey, hsane, hset⟩ := microrlInsertChar_sane hQ hs fun hesc htab' =>
      htab ⟨hesc, htab'⟩
    obtain rfl := Option.some.inj (hkey.symm.trans h)
    exact ⟨held', hsane, hset⟩

/-- **So does any sequence of bytes**, as long as each is answered. -/
theorem sane_of_run {bs : List UInt8} (hQ : Admits Q) (hs : Sane Q s held)
    (hnames : NamesAdmitted Q s) (hrun : run MicrorlT.microrlInsertChar s bs = some s') :
    ∃ held', Sane Q s' held' ∧ s'.settings = s.settings := by
  induction bs generalizing s held with
  | nil =>
    obtain rfl := Option.some.inj hrun
    exact ⟨held, hs, rfl⟩
  | cons ch bs ih =>
    obtain ⟨t, hkey, hrest⟩ := run_cons.1 hrun
    obtain ⟨held', ht, hset⟩ := sane_of_microrlInsertChar hQ hs hnames hkey
    obtain ⟨held'', hs', hset'⟩ := ih ht (hnames.of_settings hset) hrest
    exact ⟨held'', hs', hset'.trans hset⟩

end Microrl

end SlipBoard
