import SlipBoard.Shell.Delete
import SlipBoard.Shell.Insert
import SlipBoard.Shell.Model.Index
/-!
# Shell — search and order

`shell_search_cmd` finds the command with an ID where there is one
(`shellSearchCmd_spec`). `avl_first` and `avl_next` read the tree in
order (`avlFirst_spec`, `avlNext_spec`), so that the loops over them meet
every node once (`walk_spec`).
-/

namespace SlipBoard

namespace Shell

open SlipBoard.Balanced ScaleTree

variable {s : Avl} {p : Ptr} {t : ScaleTree Ptr} {fs : List (Frame Ptr)} {par : Option Ptr}
variable {ID : Ptr → UInt32} {fuel : ℕ}

/-! ## Search -/

/-- The subtrees of a tree in order are in order. -/
theorem Ordered.subtrees {l r : ScaleTree Ptr} {sc : Scale}
    (h : Ordered ID (ScaleTree.node l p sc r).toList) : Ordered ID l.toList ∧ Ordered ID r.toList := by
  rw [toList, Ordered, List.pairwise_append, List.pairwise_cons] at h
  exact ⟨h.1, h.2.1.2⟩

/-- **The way down of a search** finds the node with the ID, or the end of
the tree where it would be. -/
theorem searchFrom_spec {cmdindex : UInt32} : ∀ (t : ScaleTree Ptr) (par : Option Ptr) (rounds : ℕ),
    Rep s par t → Ordered ID t.toList → t.height < rounds →
    ∃ found, searchFrom ID s cmdindex rounds t.root = some found ∧
      ∀ q, found = some q ↔ q ∈ t.toList ∧ ID q = cmdindex := by
  intro t
  induction t with
  | nil =>
    intro par rounds _ _ hrounds
    obtain ⟨rounds, rfl⟩ : ∃ n, rounds = n + 1 := ⟨rounds - 1, by omega⟩
    refine ⟨none, rfl, fun q => iff_of_false (by simp) ?_⟩
    rintro ⟨hmem, -⟩
    cases hmem
  | node l p sc r ihl ihr =>
    intro par rounds h hordered hrounds
    obtain ⟨rounds, rfl⟩ : ∃ n, rounds = n + 1 := ⟨rounds - 1, by omega⟩
    obtain ⟨hp, hl, hr⟩ := h
    obtain ⟨hlordered, hrordered⟩ := hordered.subtrees
    obtain ⟨hbelow, habove⟩ :=
      Ordered.node (show Ordered ID (plug [] (.node l p sc r)).toList from hordered)
    rw [height] at hrounds
    rw [root, searchFrom, hp]
    by_cases hlt : cmdindex < ID p
    · rw [if_pos hlt]
      obtain ⟨found, hrun, hfound⟩ := ihl (some p) rounds hl hlordered (by omega)
      refine ⟨found, hrun, fun q => (hfound q).trans ?_⟩
      rw [toList, List.mem_append, List.mem_cons]
      refine and_congr_left fun hq => (or_iff_left ?_).symm
      rintro (rfl | hmem)
      · exact UInt32.lt_irrefl _ (hq ▸ hlt)
      · exact UInt32.lt_irrefl _ (UInt32.lt_trans hlt (hq ▸ habove q hmem))
    · rw [if_neg hlt]
      by_cases hgt : cmdindex > ID p
      · rw [if_pos hgt]
        obtain ⟨found, hrun, hfound⟩ := ihr (some p) rounds hr hrordered (by omega)
        refine ⟨found, hrun, fun q => (hfound q).trans ?_⟩
        rw [toList, List.mem_append, List.mem_cons]
        refine and_congr_left fun hq => ?_
        have hleft : q ∉ l.toList := fun hmem =>
          UInt32.lt_irrefl _ (UInt32.lt_trans hgt (hq ▸ hbelow q hmem))
        have hne : q ≠ p := by
          rintro rfl
          exact UInt32.lt_irrefl _ (hq ▸ hgt)
        rw [or_iff_right hleft, or_iff_right hne]
      · rw [if_neg hgt]
        have heq : cmdindex = ID p :=
          UInt32.le_antisymm (UInt32.not_lt.1 hgt) (UInt32.not_lt.1 hlt)
        refine ⟨some p, rfl, fun q => ?_⟩
        rw [toList, List.mem_append, List.mem_cons, Option.some.injEq]
        constructor
        · rintro rfl
          exact ⟨.inr (.inl rfl), heq.symm⟩
        · rintro ⟨hmem | rfl | hmem, hq⟩
          · exact absurd (hbelow q hmem) (by rw [hq, heq]; exact UInt32.lt_irrefl _)
          · rfl
          · exact absurd (habove q hmem) (by rw [hq, heq]; exact UInt32.lt_irrefl _)

/-- **A search** finds the command with the ID, where there is one. -/
theorem shellSearchCmd_spec (cmdindex : UInt32) (h : Holds s [] t) (hordered : Ordered ID t.toList)
    (hfuel : t.toList.length < fuel) :
    ∃ found, shellSearchCmd ID fuel s cmdindex = some found ∧
      ∀ q, found = some q ↔ q ∈ t.toList ∧ ID q = cmdindex := by
  have hheight := height_le_length (t := t)
  have hroot : s.root = t.root := h.above
  rw [shellSearchCmd, hroot]
  exact searchFrom_spec t none fuel h.here hordered (by omega)

/-! ## Order -/

/-- The left end of a tree is its first node. -/
theorem leftmost_head {q : Ptr} (h : Rep s par t) (hroot : t.root = some q)
    (hfuel : t.height ≤ fuel) : (leftmost s fuel q).map some = some t.toList.head? := by
  obtain ⟨spine, m, k, c, rfl, hleft, hrun⟩ := leftmost_spec t par fuel q h hroot hfuel
  rw [hrun, toList_plug, before_eq_nil hleft]
  rfl

/-- `avl_first` is the first node in order, and NULL for an empty tree. -/
theorem avlFirst_spec (h : Holds s [] t) (hfuel : t.toList.length < fuel) :
    avlFirst fuel s = some t.toList.head? := by
  have hheight := height_le_length (t := t)
  have hroot : s.root = t.root := h.above
  unfold avlFirst
  rw [hroot]
  cases t with
  | nil => rfl
  | node l q sc r => exact leftmost_head h.here rfl (by omega)

/-- **The climb of `avl_next`** ends at the first node after the hole: it
leaves every node whose right child it comes from. -/
theorem climb_spec : ∀ (fs : List (Frame Ptr)) (t : ScaleTree Ptr) (p : Ptr) (rounds : ℕ),
    Holds s fs t → t.root = some p → fs.length < rounds →
    climb s rounds p = some (after fs).head? := by
  intro fs
  induction fs with
  | nil =>
    intro t p rounds h hroot hrounds
    obtain ⟨rounds, rfl⟩ : ∃ n, rounds = n + 1 := ⟨rounds - 1, by omega⟩
    rw [climb, h.here.parent_eq hroot]
    rfl
  | cons f fs ih =>
    intro t p rounds h hroot hrounds
    obtain ⟨rounds, rfl⟩ : ∃ n, rounds = n + 1 := ⟨rounds - 1, by omega⟩
    have hright := h.child_iff hroot .right
    rw [climb, h.here.parent_eq hroot]
    show (if (s.node f.elem).child .right = some p then _ else _) = _
    obtain ⟨d, q, k, u⟩ := f
    cases d with
    | left =>
      rw [if_neg fun heq => Side.noConfusion (hright.1 heq)]
      rfl
    | right =>
      rw [if_pos (hright.2 rfl)]
      exact ih _ q rounds (holds_cons.1 h) root_join (by simpa using hrounds)

/-- **`avl_next`** of a node is the node that comes after it. -/
theorem avlNext_spec {l r : ScaleTree Ptr} {sc : Scale} (h : Holds s fs (.node l p sc r))
    (hfuel : (plug fs (.node l p sc r)).toList.length < fuel) :
    avlNext fuel s p = some (r.toList ++ after fs).head? := by
  obtain ⟨hp, -, hr⟩ := h.here
  have hself : top fs ≠ some p := by
    have hpfs : p ∉ elems fs := (h.disjoint (d := .left)).2.2.1
    cases fs with
    | nil =>
      intro heq
      cases heq
    | cons f fs =>
      intro heq
      cases heq
      exact hpfs List.mem_cons_self
  have hnodes := (perm_plug fs (.node l p sc r)).length_eq
  have hframes := length_le_elems fs
  have hheight := height_le_length (t := r)
  rw [toList, List.length_append, List.length_append, List.length_cons] at hnodes
  unfold avlNext
  rw [hp, if_neg hself]
  cases r with
  | nil => exact climb_spec fs _ p fuel h rfl (by omega)
  | node x q k y =>
    refine (leftmost_head hr rfl (by omega)).trans ?_
    rw [toList, List.append_assoc, List.cons_append]
    cases x.toList <;> rfl

/-- The node after one of a tree's nodes is the next in order, and NULL
behind the last. -/
theorem avlNext_of_split {front back : List Ptr} (h : Holds s [] t)
    (hsplit : t.toList = front ++ p :: back) (hfuel : t.toList.length < fuel) :
    avlNext fuel s p = some back.head? := by
  have hp : p ∈ t.toList := by simp [hsplit]
  obtain ⟨fs, l, sc, r, rfl⟩ := exists_plug hp
  have hnodup : (plug fs (.node l p sc r)).toList.Nodup := by
    have hnodup := h.nodup
    rwa [elems, List.flatMap_nil, List.append_nil] at hnodup
  have hback : back = r.toList ++ after fs := by
    have hplace := hsplit.symm.trans toList_plug_node
    rw [hsplit] at hnodup
    have hp' := (List.nodup_cons.1 (List.perm_middle.nodup_iff.1 hnodup)).1
    rw [List.mem_append, not_or] at hp'
    exact ((List.append_cons_inj_of_notMem hp'.1 hp'.2).1 hplace).2.2
  rw [hback]
  exact avlNext_spec (holds_plug.1 h) hfuel

/-- The loop from one of a tree's nodes on. -/
theorem walkFrom_spec (h : Holds s [] t) (hfuel : t.toList.length < fuel) :
    ∀ (back front : List Ptr) (rounds : ℕ), t.toList = front ++ back → back.length < rounds →
      walkFrom fuel s rounds back.head? = some back := by
  intro back
  induction back with
  | nil =>
    intro front rounds _ hrounds
    obtain ⟨rounds, rfl⟩ : ∃ n, rounds = n + 1 := ⟨rounds - 1, by omega⟩
    rfl
  | cons p back ih =>
    intro front rounds hsplit hrounds
    obtain ⟨rounds, rfl⟩ : ∃ n, rounds = n + 1 := ⟨rounds - 1, by omega⟩
    have hrest := ih (front ++ [p]) rounds (by rw [hsplit, List.append_assoc]; rfl)
      (by simpa using hrounds)
    rw [List.head?_cons, walkFrom, avlNext_of_split h hsplit hfuel, Option.bind_eq_bind,
      Option.bind_some, hrest]
    rfl

/-- **The loops over the tree** meet the nodes in order, each once. -/
theorem walk_spec (h : Holds s [] t) (hfuel : t.toList.length < fuel) :
    walk fuel s = some t.toList := by
  rw [walk, avlFirst_spec h hfuel]
  exact walkFrom_spec h hfuel t.toList [] fuel rfl hfuel

end Shell

end SlipBoard
