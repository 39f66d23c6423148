import SlipBoard.Common.Transition
import SlipBoard.Shell.Lookup
import Mathlib.Data.Finset.Card
/-!
# Shell — the index over whole runs

What the index is for: a set of commands, no two of an ID
(`presentStep`). A command whose ID is taken is not put in, and only what
is present is taken out. `Indexes` says that the memory holds that set as
a balanced search tree, one step keeps it (`Indexes.step`), and so does
any list of operations (`tree_index`).
-/

namespace SlipBoard

namespace Shell

open SlipBoard.Balanced ScaleTree Transition

variable {s : Avl} {ID : Ptr → UInt32} {fuel : ℕ} {present : Finset Ptr}

/-- One operation on the set of the commands present: an insert is ignored
where a command with its ID is there, and only what is present can be
deleted. -/
def presentStep (ID : Ptr → UInt32) (present : Finset Ptr) : IndexOp → Option (Finset Ptr)
  | .insert newcmd =>
    some (if ∃ q ∈ present, ID q = ID newcmd then present else insert newcmd present)
  | .delete p => if p ∈ present then some (present.erase p) else none

/-- **The memory holds the commands as a balanced search tree** `t`: the
links, the parents and the scales of its nodes are those of `t`. -/
structure Indexes (ID : Ptr → UInt32) (s : Avl) (t : ScaleTree Ptr) (present : Finset Ptr) : Prop where
  root : s.root = t.root
  rep : Rep s none t
  sound : Sound t
  ordered : Ordered ID t.toList
  mem_iff : ∀ p, p ∈ t.toList ↔ p ∈ present

theorem Ordered.nodup {l : List Ptr} (h : Ordered ID l) : l.Nodup :=
  List.Pairwise.imp (fun hlt => by rintro rfl; exact UInt32.lt_irrefl _ hlt) h

namespace Indexes

variable {t : ScaleTree Ptr}

theorem holds (h : Indexes ID s t present) : Holds s [] t := by
  refine ⟨h.root, h.rep, ?_⟩
  rw [elems, List.flatMap_nil, List.append_nil]
  exact h.ordered.nodup

/-- The tree has as many nodes as there are commands. -/
theorem length_eq (h : Indexes ID s t present) : t.toList.length = present.card := by
  rw [← List.toFinset_card_of_nodup h.ordered.nodup]
  refine congrArg Finset.card ?_
  ext p
  rw [List.mem_toFinset, h.mem_iff]

theorem of_settled {l : List Ptr} (h : Settled l s) (hordered : Ordered ID l)
    (hmem : ∀ p, p ∈ l ↔ p ∈ present) : ∃ t, Indexes ID s t present := by
  obtain ⟨t, hholds, hsound, rfl⟩ := h
  exact ⟨t, hholds.above, hholds.here, hsound, hordered, hmem⟩

/-- A command goes in between those below its ID and those above. -/
theorem insert (h : Indexes ID s t present) (newcmd : Ptr) (hfuel : present.card < fuel) :
    ∃ s' t', (shellInsertCmd ID fuel s newcmd).map Prod.fst = some s' ∧
      Indexes ID s' t' (if ∃ q ∈ present, ID q = ID newcmd then present
        else Insert.insert newcmd present) := by
  rw [← h.length_eq] at hfuel
  obtain ⟨⟨s', ret⟩, hrun, hinserted⟩ :=
    shellInsertCmd_spec newcmd h.holds h.sound h.ordered hfuel
  rcases hinserted with ⟨⟨q, hq, hID⟩, rfl, -⟩ | ⟨front, back, hsplit, hbelow, habove, -, hsettled⟩
  · refine ⟨s', t, by rw [hrun]; rfl, ?_⟩
    rwa [if_pos ⟨q, (h.mem_iff q).1 hq, hID⟩]
  · have hnew : ¬∃ q ∈ present, ID q = ID newcmd := by
      rintro ⟨q, hq, hID⟩
      rw [← h.mem_iff, hsplit, List.mem_append] at hq
      rcases hq with hq | hq
      · exact UInt32.lt_irrefl _ (hID ▸ hbelow q hq)
      · exact UInt32.lt_irrefl _ (hID ▸ habove q hq)
    have hordered := h.ordered
    rw [hsplit, Ordered, List.pairwise_append] at hordered
    obtain ⟨hfront, hback, -⟩ := hordered
    have hout : ∃ t', Indexes ID s' t' (Insert.insert newcmd present) := by
      refine of_settled hsettled ?_ fun p => ?_
      · refine List.pairwise_append.2 ⟨hfront, List.pairwise_cons.2 ⟨habove, hback⟩, ?_⟩
        intro p hp q hq
        rcases List.mem_cons.1 hq with rfl | hq
        · exact hbelow p hp
        · exact UInt32.lt_trans (hbelow p hp) (habove q hq)
      · rw [Finset.mem_insert, ← h.mem_iff, hsplit, List.mem_append, List.mem_cons,
          List.mem_append]
        exact or_left_comm
    obtain ⟨t', ht'⟩ := hout
    refine ⟨s', t', by rw [hrun]; rfl, ?_⟩
    rwa [if_neg hnew]

/-- A node goes out of the index, and the others stay in their order. -/
theorem delete (h : Indexes ID s t present) {node : Ptr} (hnode : node ∈ present)
    (hfuel : present.card < fuel) :
    ∃ s' t', avlDelete fuel s node = some s' ∧ Indexes ID s' t' (present.erase node) := by
  rw [← h.length_eq] at hfuel
  obtain ⟨s', front, back, hrun, hsplit, hsettled⟩ :=
    avlDelete_spec h.holds h.sound ((h.mem_iff node).2 hnode) hfuel
  have hordered := h.ordered
  have hnodup := h.ordered.nodup
  rw [hsplit] at hordered hnodup
  have hout : ∃ t', Indexes ID s' t' (present.erase node) := by
    refine of_settled hsettled
      (hordered.sublist (List.Sublist.append_left (List.sublist_cons_self _ _) _)) fun p => ?_
    have hnode := (List.nodup_cons.1 (List.perm_middle.nodup_iff.1 hnodup)).1
    rw [Finset.mem_erase, ← h.mem_iff, hsplit, List.mem_append, List.mem_append, List.mem_cons]
    rw [List.mem_append] at hnode
    constructor
    · intro hp
      exact ⟨fun heq => hnode (heq ▸ hp), hp.imp_right .inr⟩
    · rintro ⟨hne, hp | hp | hp⟩
      · exact .inl hp
      · exact absurd hp hne
      · exact .inr hp
  obtain ⟨t', ht'⟩ := hout
  exact ⟨s', t', hrun, ht'⟩

/-- **One step** of the index is one of the set: a command is put in, or
taken out, and the tree stays one that indexes it. -/
theorem step (h : Indexes ID s t present) {op : IndexOp} {present' : Finset Ptr}
    (hop : presentStep ID present op = some present') (hfuel : present.card < fuel) :
    ∃ s' t', treeStep ID fuel s op = some s' ∧ Indexes ID s' t' present' := by
  cases op with
  | insert newcmd =>
    cases hop
    exact h.insert newcmd hfuel
  | delete node =>
    by_cases hnode : node ∈ present
    · rw [presentStep, if_pos hnode] at hop
      cases hop
      exact h.delete hnode hfuel
    · rw [presentStep, if_neg hnode] at hop
      cases hop

end Indexes

/-- A step puts in one command at most, which bounds the fuel of a run. -/
theorem presentStep_card {op : IndexOp} {present' : Finset Ptr}
    (hop : presentStep ID present op = some present') : present'.card ≤ present.card + 1 := by
  cases op with
  | insert newcmd =>
    cases hop
    split
    · exact Nat.le_succ _
    · exact Finset.card_insert_le _ _
  | delete node =>
    by_cases hnode : node ∈ present
    · rw [presentStep, if_pos hnode] at hop
      cases hop
      exact (Finset.card_le_card (Finset.erase_subset _ _)).trans (Nat.le_succ _)
    · rw [presentStep, if_neg hnode] at hop
      cases hop

/-- **A whole run** of steps is answered, and ends in a tree that indexes
what has been put in and not taken out. -/
theorem Indexes.run {ops : List IndexOp} : ∀ {s : Avl} {t : ScaleTree Ptr}
    {present present' : Finset Ptr}, Indexes ID s t present →
    Transition.run (presentStep ID) present ops = some present' →
    present.card + ops.length < fuel →
    ∃ s' t', Transition.run (treeStep ID fuel) s ops = some s' ∧ Indexes ID s' t' present' := by
  induction ops with
  | nil =>
    intro s t present present' h hrun _
    cases hrun
    exact ⟨s, t, rfl, h⟩
  | cons op ops ih =>
    intro s t present present' h hrun hfuel
    obtain ⟨present₁, hop, hrun⟩ := run_cons.1 hrun
    rw [List.length_cons] at hfuel
    have hcard := presentStep_card hop
    have hroom : present.card < fuel := by omega
    obtain ⟨s₁, t₁, hstep, h₁⟩ := h.step hop hroom
    obtain ⟨s', t', hrun', h'⟩ := ih h₁ hrun (by omega)
    exact ⟨s', t', run_cons.2 ⟨s₁, hstep, hrun'⟩, h'⟩

/-- The empty tree is the index of no commands. -/
theorem indexes_nil (memory : Ptr → AvlNode) : Indexes ID ⟨memory, none⟩ .nil ∅ := by
  refine ⟨rfl, trivial, trivial, List.Pairwise.nil, fun p => ?_⟩
  exact iff_of_false List.not_mem_nil (Finset.notMem_empty p)

/-- A run from an empty index: the tree in memory follows the set of the
commands present. -/
theorem exists_indexes (memory : Ptr → AvlNode) {ops : List IndexOp}
    (hrun : Transition.run (presentStep ID) ∅ ops = some present) (hfuel : ops.length < fuel) :
    ∃ s t, Transition.run (treeStep ID fuel) ⟨memory, none⟩ ops = some s ∧
      Indexes ID s t present := by
  refine (indexes_nil memory).run hrun ?_
  rwa [Finset.card_empty, Nat.zero_add]

/-- The commands present are as many as were put in, at most. -/
theorem card_le_length {ops : List IndexOp} : ∀ {present present' : Finset Ptr},
    Transition.run (presentStep ID) present ops = some present' →
    present'.card ≤ present.card + ops.length := by
  induction ops with
  | nil =>
    intro present present' hrun
    cases hrun
    exact le_refl _
  | cons op ops ih =>
    intro present present' hrun
    obtain ⟨present₁, hop, hrun⟩ := run_cons.1 hrun
    have hcard := presentStep_card hop
    have hrest := ih hrun
    rw [List.length_cons]
    omega

/-- **The index over a whole run** from the empty root: a balanced search
tree of the commands put in and not taken out, in which a search finds
what is there, and which the loops go through in the order of the IDs. -/
theorem tree_index (memory : Ptr → AvlNode) (ops : List IndexOp)
    (hrun : Transition.run (presentStep ID) ∅ ops = some present) (hfuel : ops.length < fuel) :
    ∃ s t, Transition.run (treeStep ID fuel) ⟨memory, none⟩ ops = some s ∧
      Indexes ID s t present ∧
      (∀ cmdindex, ∃ found, shellSearchCmd ID fuel s cmdindex = some found ∧
        ∀ p, found = some p ↔ p ∈ present ∧ ID p = cmdindex) ∧
      walk fuel s = some t.toList := by
  obtain ⟨s, t, hops, h⟩ := exists_indexes memory hrun hfuel
  have hcard := card_le_length hrun
  rw [Finset.card_empty, Nat.zero_add, ← h.length_eq] at hcard
  have hroom : t.toList.length < fuel := by omega
  refine ⟨s, t, hops, h, fun cmdindex => ?_, walk_spec h.holds hroom⟩
  obtain ⟨found, hsearch, hfound⟩ := shellSearchCmd_spec cmdindex h.holds h.ordered hroom
  refine ⟨found, hsearch, fun p => ?_⟩
  rw [hfound, h.mem_iff]

/-- Three commands that need a rotation, the middle one taken out, and one
whose ID is taken. -/
theorem tree_index_three : ∃ s t,
    Transition.run (treeStep (fun p => UInt32.ofNat (p / 2)) 9)
      ⟨fun _ => ⟨none, .balanced, none, none⟩, none⟩
      [.insert 2, .insert 4, .insert 6, .insert 7, .delete 4] = some s ∧
    Indexes (fun p => UInt32.ofNat (p / 2)) s t {2, 6} ∧
    (∀ cmdindex, ∃ found,
      shellSearchCmd (fun p => UInt32.ofNat (p / 2)) 9 s cmdindex = some found ∧
        ∀ p, found = some p ↔ p ∈ ({2, 6} : Finset Ptr) ∧ UInt32.ofNat (p / 2) = cmdindex) ∧
    walk 9 s = some t.toList :=
  tree_index _ _ (by decide) (by decide)

end Shell

end SlipBoard
