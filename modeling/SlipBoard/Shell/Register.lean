import SlipBoard.Shell.Index
import SlipBoard.Shell.Model.Command
/-!
# Shell — registration

Of the commands registered under one ID the first is in the tree, and the
others are not (`Registered`). So a search for an ID finds the first one
registered under it (`Registered.search`), whatever the names are.
-/

namespace SlipBoard

namespace Shell

open SlipBoard.Balanced ScaleTree Transition

variable {sh : Commands} {regs : List Registration} {r x : Registration} {fuel : ℕ}

/-- The first command registered under an ID. One that is registered later
under the same ID is never found. -/
def firstWith (regs : List Registration) (cmdindex : UInt32) : Option Registration :=
  regs.find? fun r => nameID r.cmdName = cmdindex

theorem firstWith_mem {cmdindex : UInt32} (h : firstWith regs cmdindex = some r) :
    r ∈ regs ∧ nameID r.cmdName = cmdindex :=
  ⟨List.mem_of_find?_eq_some h, by simpa using List.find?_some h⟩

theorem firstWith_eq_none {cmdindex : UInt32} :
    firstWith regs cmdindex = none ↔ ∀ q ∈ regs, nameID q.cmdName ≠ cmdindex := by
  simp [firstWith]

/-- Under the ID of a command there is a first one. -/
theorem exists_firstWith (hr : r ∈ regs) : ∃ q ∈ regs,
    firstWith regs (nameID r.cmdName) = some q ∧ nameID q.cmdName = nameID r.cmdName := by
  cases hfirst : firstWith regs (nameID r.cmdName) with
  | none => exact absurd rfl (firstWith_eq_none.1 hfirst r hr)
  | some q =>
    obtain ⟨hq, hID⟩ := firstWith_mem hfirst
    exact ⟨q, hq, rfl, hID⟩

/-- One more is the first under its ID where there was none. -/
theorem firstWith_concat : firstWith (regs ++ [r]) (nameID x.cmdName) = some x ↔
    firstWith regs (nameID x.cmdName) = some x ∨
      firstWith regs (nameID r.cmdName) = none ∧ x = r := by
  unfold firstWith
  rw [List.find?_append, Option.or_eq_some_iff]
  refine or_congr_right ⟨?_, ?_⟩
  · rintro ⟨hnone, hlast⟩
    have hx : x = r := List.mem_singleton.1 (List.mem_of_find?_eq_some hlast)
    exact ⟨hx ▸ hnone, hx⟩
  · rintro ⟨hnone, rfl⟩
    exact ⟨hnone, List.find?_cons_of_pos (decide_eq_true rfl)⟩

/-- **What a list of registrations leaves**: each command holds what it was
given, and the first under each ID are in the tree. -/
structure Registered (regs : List Registration) (sh : Commands) : Prop where
  stored : ∀ r ∈ regs, sh.cmd r.newcmd = ⟨nameID r.cmdName, r.cmdName, r.cmdFunc⟩
  indexed : ∃ t present, Indexes sh.ID sh.root t present ∧
    ∀ p, p ∈ present ↔ ∃ r, firstWith regs (nameID r.cmdName) = some r ∧ r.newcmd = p

/-- There are no more of the first than of all. -/
theorem card_le_registered {present : Finset Ptr} (h : ∀ p, p ∈ present ↔
    ∃ r, firstWith regs (nameID r.cmdName) = some r ∧ r.newcmd = p) :
    present.card ≤ regs.length := by
  have hsub : present ⊆ (regs.map (·.newcmd)).toFinset := by
    intro p hp
    obtain ⟨q, hq, rfl⟩ := (h p).1 hp
    exact List.mem_toFinset.2 (List.mem_map_of_mem (firstWith_mem hq).1)
  have hle := (Finset.card_le_card hsub).trans (List.toFinset_card_le _)
  rwa [List.length_map] at hle

theorem Registered.ID_eq (h : Registered regs sh) (hr : r ∈ regs) :
    sh.ID r.newcmd = nameID r.cmdName := by
  rw [Commands.ID, h.stored r hr]

/-- An index rests on the IDs of the commands that are present. -/
theorem Indexes.congr {ID ID' : Ptr → UInt32} {s : Avl} {t : ScaleTree Ptr} {present : Finset Ptr}
    (h : Indexes ID s t present) (hsame : ∀ p ∈ present, ID' p = ID p) :
    Indexes ID' s t present := by
  refine ⟨h.root, h.rep, h.sound, ?_, h.mem_iff⟩
  refine List.Pairwise.imp_of_mem (fun hp hq hlt => ?_) h.ordered
  rwa [hsame _ ((h.mem_iff _).1 hp), hsame _ ((h.mem_iff _).1 hq)]

theorem registered_nil (sh : Commands) (hroot : sh.root.root = none) : Registered [] sh := by
  refine ⟨fun r hr => absurd hr List.not_mem_nil, .nil, ∅, ?_, fun p => ?_⟩
  · have hempty : Indexes sh.ID ⟨sh.root.node, none⟩ .nil ∅ := indexes_nil sh.root.node
    rwa [← hroot] at hempty
  · refine iff_of_false (Finset.notMem_empty p) ?_
    rintro ⟨r, hr, -⟩
    cases hr

/-- **One registration**, of a command that is not in use, is answered, and
the tree holds it with the others. -/
theorem Registered.step (h : Registered regs sh) (hnew : r.newcmd ∉ regs.map (·.newcmd))
    (hfuel : regs.length < fuel) :
    ∃ sh', shellRegister fuel sh r = some sh' ∧ Registered (regs ++ [r]) sh' := by
  obtain ⟨t, present, hindex, hpresent⟩ := h.indexed
  set cmd := Function.update sh.cmd r.newcmd ⟨nameID r.cmdName, r.cmdName, r.cmdFunc⟩ with hcmd
  have hold : ∀ q ∈ regs, cmd q.newcmd = sh.cmd q.newcmd := by
    intro q hq
    refine Function.update_of_ne (fun heq => hnew ?_) _ _
    exact heq ▸ List.mem_map_of_mem hq
  have hID : (cmd r.newcmd).ID = nameID r.cmdName := by rw [hcmd, Function.update_self]
  have hindex' : Indexes (fun p => (cmd p).ID) sh.root t present := by
    refine hindex.congr fun p hp => ?_
    obtain ⟨q, hq, rfl⟩ := (hpresent p).1 hp
    exact congrArg ShellCmd.ID (hold q (firstWith_mem hq).1)
  obtain ⟨root, t', hrun, ht'⟩ :=
    hindex'.insert r.newcmd ((card_le_registered hpresent).trans_lt hfuel)
  obtain ⟨⟨root', ret⟩, hinsert, hroot⟩ := Option.map_eq_some_iff.1 hrun
  obtain rfl : root' = root := hroot
  refine ⟨{ sh with cmd := cmd, root := root' }, ?_, ?_, t', _, ht', fun p => ?_⟩
  · show (shellInsertCmd (fun p => (cmd p).ID) fuel sh.root r.newcmd >>= _) = _
    rw [hinsert]
    rfl
  · intro q hq
    rcases List.mem_append.1 hq with hq | hq
    · exact (hold q hq).trans (h.stored q hq)
    · obtain rfl := List.mem_singleton.1 hq
      exact Function.update_self _ _ _
  · -- the ID is taken exactly when some command has been registered under it
    have htaken : (∃ q ∈ present, (cmd q).ID = (cmd r.newcmd).ID) ↔
        firstWith regs (nameID r.cmdName) ≠ none := by
      rw [hID]
      constructor
      · rintro ⟨p, hp, heq⟩ hnone
        obtain ⟨q, hq, rfl⟩ := (hpresent p).1 hp
        rw [hold q (firstWith_mem hq).1, h.stored q (firstWith_mem hq).1] at heq
        exact firstWith_eq_none.1 hnone q (firstWith_mem hq).1 heq
      · intro hsome
        obtain ⟨q, hq⟩ := Option.ne_none_iff_exists'.1 hsome
        obtain ⟨hmem, heq⟩ := firstWith_mem hq
        refine ⟨q.newcmd, (hpresent _).2 ⟨q, heq ▸ hq, rfl⟩, ?_⟩
        rw [hold q hmem, h.stored q hmem]
        exact heq
    have hsplit : (∃ x, firstWith (regs ++ [r]) (nameID x.cmdName) = some x ∧ x.newcmd = p) ↔
        p ∈ present ∨ firstWith regs (nameID r.cmdName) = none ∧ r.newcmd = p := by
      rw [hpresent]
      simp only [firstWith_concat, or_and_right, exists_or]
      refine or_congr_right ⟨?_, fun hlast => ⟨r, ⟨hlast.1, rfl⟩, hlast.2⟩⟩
      rintro ⟨x, ⟨hnone, rfl⟩, hp⟩
      exact ⟨hnone, hp⟩
    rw [hsplit]
    by_cases hnone : firstWith regs (nameID r.cmdName) = none
    · rw [if_neg fun hex => htaken.1 hex hnone, Finset.mem_insert, and_iff_right hnone, or_comm,
        eq_comm]
    · rw [if_pos (htaken.2 hnone), or_iff_left fun hlast => hnone hlast.1]

/-- **A run of registrations** is answered, and the tree holds the commands
of all of them. -/
theorem Registered.run : ∀ {regs done : List Registration} {sh : Commands}, Registered done sh →
    ((done ++ regs).map (·.newcmd)).Nodup → done.length + regs.length < fuel →
    ∃ sh', Transition.run (shellRegister fuel) sh regs = some sh' ∧
      Registered (done ++ regs) sh' := by
  intro regs
  induction regs with
  | nil =>
    intro done sh h _ _
    refine ⟨sh, rfl, ?_⟩
    rwa [List.append_nil]
  | cons r regs ih =>
    intro done sh h hnodup hfuel
    rw [List.length_cons] at hfuel
    have hnew : r.newcmd ∉ done.map (·.newcmd) := by
      rw [List.map_append, List.map_cons] at hnodup
      intro hmem
      exact (List.nodup_append.1 hnodup).2.2 _ hmem _ List.mem_cons_self rfl
    obtain ⟨sh₁, hstep, h₁⟩ := h.step hnew (show done.length < fuel by omega)
    rw [List.append_cons] at hnodup ⊢
    obtain ⟨sh', hrun, h'⟩ := ih h₁ hnodup (by rw [List.length_append, List.length_singleton]; omega)
    exact ⟨sh', run_cons.2 ⟨sh₁, hstep, hrun⟩, h'⟩

/-- **A search finds the first command registered under the ID**: a later
one of the same ID is not put in. -/
theorem Registered.search (h : Registered regs sh) (hfuel : regs.length < fuel)
    (cmdindex : UInt32) : shellSearchCmd sh.ID fuel sh.root cmdindex =
      some ((firstWith regs cmdindex).map (·.newcmd)) := by
  obtain ⟨t, present, hindex, hpresent⟩ := h.indexed
  have hroom : t.toList.length < fuel := by
    rw [hindex.length_eq]
    exact (card_le_registered hpresent).trans_lt hfuel
  obtain ⟨found, hsearch, hfound⟩ := shellSearchCmd_spec cmdindex hindex.holds hindex.ordered hroom
  rw [hsearch]
  refine congrArg some (Option.ext fun p => ?_)
  rw [hfound, hindex.mem_iff, hpresent, Option.map_eq_some_iff]
  constructor
  · rintro ⟨⟨q, hq, rfl⟩, heq⟩
    rw [h.ID_eq (firstWith_mem hq).1] at heq
    exact ⟨q, heq ▸ hq, rfl⟩
  · rintro ⟨q, hq, rfl⟩
    obtain ⟨hmem, heq⟩ := firstWith_mem hq
    exact ⟨⟨q, heq ▸ hq, rfl⟩, (h.ID_eq hmem).trans heq⟩

end Shell

end SlipBoard
