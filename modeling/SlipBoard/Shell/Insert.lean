import SlipBoard.Shell.Balance
/-!
# Shell — insertion

`shell_insert_cmd` goes down to an empty place by the order of the
commands' IDs (`insertFrom_spec`), and `avl_insert` puts the node there
and climbs back (`avlInsert_spec`). A command whose ID is in the tree
already is not put in.
-/

namespace SlipBoard

namespace Shell

open SlipBoard.Balanced ScaleTree

variable {s s' : Avl} {p : Ptr} {t : ScaleTree Ptr} {fs : List (Frame Ptr)} {link hole : Option Ptr}
variable {ID : Ptr → UInt32}

/-- The nodes stand in the order of their IDs, none of them twice. -/
def Ordered (ID : Ptr → UInt32) (l : List Ptr) : Prop := l.Pairwise fun p q => ID p < ID q

/-- The link that is the hole of the frames: the root's, or that of the
parent on its side. -/
def linkOf : List (Frame Ptr) → Link
  | [] => .root
  | f :: _ => .child f.elem f.side

theorem Holds.load (h : Holds s fs t) : s.load (linkOf fs) = t.root := by
  cases fs with
  | nil => exact h.above
  | cons f fs =>
    show (s.node f.elem).child f.side = _
    rw [h.above.1, cell_child]

theorem store_node_of_notMem {q : Ptr} (h : q ∉ elems fs) (link : Option Ptr) :
    (s.store (linkOf fs) link).node q = s.node q := by
  cases fs with
  | nil => rfl
  | cons f fs =>
    show (s.setChild f.elem f.side link).node q = _
    refine upd_node_of_ne ?_
    rintro rfl
    exact h List.mem_cons_self

/-- The link in the hole is stored, and the frames around it stay as they
are. -/
theorem RepCtx.store (h : RepCtx s fs hole) (hnodup : (elems fs).Nodup) (link : Option Ptr) :
    RepCtx (s.store (linkOf fs) link) fs link := by
  cases fs with
  | nil => rfl
  | cons f fs => exact h.setChild hnodup link

/-- The root of a tree with a frame is in the frames. -/
theorem RepCtx.root_mem {f : Frame Ptr} (h : RepCtx s (f :: fs) hole) :
    ∃ q ∈ elems (f :: fs), s.root = some q := by
  induction fs generalizing f hole with
  | nil => exact ⟨f.elem, List.mem_cons_self, h.2.2⟩
  | cons g fs ih =>
    obtain ⟨q, hq, hroot⟩ := ih h.2.2
    refine ⟨q, ?_, hroot⟩
    rw [elems_cons]
    exact List.mem_cons_of_mem _ (List.mem_append_right _ hq)

/-- A leaf, as an inserted command is before anything is rebalanced. -/
def leaf (p : Ptr) : ScaleTree Ptr := .node .nil p .balanced .nil

/-- The node is linked in as a leaf, in the hole that the search has found. -/
theorem holds_leaf (h : Holds s fs .nil) (hp : p ∉ elems fs) :
    Holds ((s.upd p fun _ => ⟨top fs, .balanced, none, none⟩).store (linkOf fs) (some p)) fs
      (leaf p) := by
  have hnodup : (elems fs).Nodup := h.nodup
  have habove : RepCtx (s.upd p fun _ => ⟨top fs, .balanced, none, none⟩) fs none :=
    h.above.congr (fun q hq => upd_node_of_ne (ne_of_mem_of_not_mem hq hp)) rfl
  refine ⟨habove.store hnodup (some p), ⟨?_, trivial, trivial⟩, List.nodup_cons.2 ⟨hp, hnodup⟩⟩
  rw [store_node_of_notMem hp, upd_node_self]
  rfl

/-- **The insertion at an empty place**: the node is linked there, and the
tree is balanced again up to the root. -/
theorem avlInsert_spec {fuel : ℕ} (h : Holds s fs .nil) (hp : p ∉ elems fs)
    (hsound : Sound (plug fs .nil)) (hfuel : (plug fs .nil).toList.length < fuel) :
    ∃ s', avlInsert fuel s p (top fs) (linkOf fs) = some s' ∧
      Settled (before fs ++ p :: after fs) s' := by
  have hleaf := holds_leaf h hp
  have hfits := ((sound_plug fs .nil).1 hsound).2
  have hlist : before fs ++ p :: after fs = (plug fs (leaf p)).toList := by
    rw [toList_plug]
    simp [leaf, toList]
  have hsoundLeaf : Sound (leaf p) := ⟨trivial, trivial, rfl⟩
  rw [hlist]
  simp only [avlInsert]
  generalize (s.upd p fun _ => ⟨top fs, .balanced, none, none⟩).store (linkOf fs) (some p) = s₂
    at hleaf ⊢
  cases fs with
  | nil => exact ⟨s₂, if_pos hleaf.above, leaf p, hleaf, hsoundLeaf, rfl⟩
  | cons f fs =>
    have hroot : s₂.root ≠ some p := by
      obtain ⟨q, hq, hroot⟩ := hleaf.above.root_mem
      rw [hroot]
      intro heq
      cases heq
      exact hp hq
    have hattach := holds_cons.1 hleaf
    have hscale : (s₂.node f.elem).scale = f.scale := by
      rw [hattach.node, cell_scale]
    rw [if_neg hroot, top, Option.bind_eq_bind, Option.bind_some, hscale]
    by_cases hbalanced : f.scale = .balanced
    · rw [if_neg (not_not.2 hbalanced)]
      have hpath : PathOf (if (s₂.node f.elem).left = some p then .left else .right) (f :: fs) :=
        hleaf.pathLeft rfl
      have hframes := length_le_elems (f :: fs)
      have hnodes := (perm_plug (f :: fs) .nil).length_eq
      rw [toList, List.nil_append] at hnodes
      refine insertTrack_spec (f :: fs) fuel s₂ (leaf p) 0 _ hleaf hsoundLeaf hfits rfl hpath
        (by omega) ?_
      have hnodes' := (perm_plug (f :: fs) (leaf p)).length_eq
      rw [List.length_append, show (leaf p).toList.length = 1 from rfl] at hnodes'
      omega
    · -- the place across is taken, and the two are level now
      obtain ⟨hsib, hleans, hfits⟩ := hfits
      rw [if_pos hbalanced]
      have hone : f.sibling.height = 1 := by
        rcases Scale.cases f.side f.scale with heq | heq | heq
        · exact absurd heq hbalanced
        · rw [heq, leans_tilt] at hleans
          cases hleans
        · rw [heq, leans_tilt_other] at hleans
          exact hleans
      have hattach' : Sound (join f.side (leaf p) f.elem .balanced f.sibling) :=
        sound_join.2 ⟨hsoundLeaf, hsib, hone.symm⟩
      refine ⟨_, rfl, ?_⟩
      have hsettled := settled_of_fits (hattach.setScale .balanced) hattach' (by
        rw [height_join, hone]
        rwa [show height (.nil : ScaleTree Ptr) = 0 from rfl, hone] at hfits)
      rwa [toList_plug_congr (toList_join_congr rfl rfl)] at hsettled

/-! ## The way down -/

/-- What `shell_insert_cmd` does to a tree with the nodes `l` in order: it
finds the ID there, or the place where the command belongs. -/
def Inserted (ID : Ptr → UInt32) (s : Avl) (l : List Ptr) (newcmd : Ptr) : Avl × ℕ → Prop
  | (s', ret) => (∃ q ∈ l, ID q = ID newcmd) ∧ s' = s ∧ ret = 1 ∨
      ∃ front back, l = front ++ back ∧ (∀ q ∈ front, ID q < ID newcmd) ∧
        (∀ q ∈ back, ID newcmd < ID q) ∧ ret = 0 ∧ Settled (front ++ newcmd :: back) s'

/-- In order, a node is between its subtrees: the IDs on its left are below
its own, and those on its right above. -/
theorem Ordered.node {l r : ScaleTree Ptr} {sc : Scale}
    (h : Ordered ID (plug fs (.node l p sc r)).toList) :
    (∀ q ∈ l.toList, ID q < ID p) ∧ ∀ q ∈ r.toList, ID p < ID q := by
  rw [toList_plug, Ordered, List.pairwise_append, List.pairwise_append] at h
  have hnode := h.1.2.1
  rw [toList, List.pairwise_append, List.pairwise_cons] at hnode
  exact ⟨fun q hq => hnode.2.2 q hq p List.mem_cons_self, hnode.2.1.1⟩

/-- **The way down.** What is before the hole is below the new ID, what is
after it above. -/
theorem insertFrom_spec {fuel : ℕ} {newcmd : Ptr} : ∀ (t : ScaleTree Ptr) (fs : List (Frame Ptr))
    (rounds : ℕ), Holds s fs t → Sound (plug fs t) → Ordered ID (plug fs t).toList →
    (∀ q ∈ before fs, ID q < ID newcmd) → (∀ q ∈ after fs, ID newcmd < ID q) →
    t.height < rounds → (plug fs t).toList.length < fuel →
    ∃ r, insertFrom ID fuel s newcmd rounds (top fs) (linkOf fs) = some r ∧
      Inserted ID s (plug fs t).toList newcmd r := by
  intro t
  induction t with
  | nil =>
    intro fs rounds h hsound _ hbefore hafter hrounds hfuel
    obtain ⟨rounds, rfl⟩ : ∃ n, rounds = n + 1 := ⟨rounds - 1, by omega⟩
    have hnew : newcmd ∉ elems fs := by
      intro hmem
      rw [← List.nil_append (elems fs), ← toList, ← (perm_plug fs .nil).mem_iff, toList_plug, toList,
        List.append_nil, List.mem_append] at hmem
      rcases hmem with hmem | hmem
      · exact absurd (hbefore newcmd hmem) (UInt32.lt_irrefl _)
      · exact absurd (hafter newcmd hmem) (UInt32.lt_irrefl _)
    obtain ⟨s', hs', hsettled⟩ := avlInsert_spec h hnew hsound hfuel
    refine ⟨(s', 0), ?_, .inr ⟨before fs, after fs, ?_, hbefore, hafter, rfl, hsettled⟩⟩
    · rw [insertFrom, h.load]
      show (avlInsert fuel s newcmd (top fs) (linkOf fs) >>= _) = _
      rw [hs']
      rfl
    · rw [toList_plug, toList, List.append_nil]
  | node l p sc r ihl ihr =>
    intro fs rounds h hsound hordered hbefore hafter hrounds hfuel
    obtain ⟨rounds, rfl⟩ : ∃ n, rounds = n + 1 := ⟨rounds - 1, by omega⟩
    rw [height] at hrounds
    obtain ⟨hl, hr⟩ := hordered.node
    rw [insertFrom, h.load, root]
    show ∃ res, (if ID newcmd < ID p then _ else if ID newcmd > ID p then _ else _) = some res ∧ _
    by_cases hlt : ID newcmd < ID p
    · rw [if_pos hlt]
      refine ihl (⟨.left, p, sc, r⟩ :: fs) rounds (holds_cons.2 h) hsound hordered hbefore ?_
        (by omega) hfuel
      intro q hq
      simp only [after, List.cons_append, List.mem_cons, List.mem_append] at hq
      rcases hq with rfl | hq | hq
      · exact hlt
      · exact UInt32.lt_trans hlt (hr q hq)
      · exact hafter q hq
    · rw [if_neg hlt]
      by_cases hgt : ID newcmd > ID p
      · rw [if_pos hgt]
        refine ihr (⟨.right, p, sc, l⟩ :: fs) rounds (holds_cons.2 h) hsound hordered ?_ hafter
          (by omega) hfuel
        intro q hq
        simp only [before, List.mem_append, List.mem_singleton] at hq
        rcases hq with hq | hq | rfl
        · exact hbefore q hq
        · exact UInt32.lt_trans (hl q hq) hgt
        · exact hgt
      · rw [if_neg hgt]
        refine ⟨_, rfl, .inl ⟨⟨p, ?_, ?_⟩, rfl, rfl⟩⟩
        · simp [toList_plug, toList]
        · exact UInt32.le_antisymm (UInt32.not_lt.1 hlt) (UInt32.not_lt.1 hgt)

/-- **The insertion of a command** goes to the place of its ID, and where
one with the ID is there the tree stays as it is. -/
theorem shellInsertCmd_spec {fuel : ℕ} (newcmd : Ptr) (h : Holds s [] t) (hsound : Sound t)
    (hordered : Ordered ID t.toList) (hfuel : t.toList.length < fuel) :
    ∃ r, shellInsertCmd ID fuel s newcmd = some r ∧ Inserted ID s t.toList newcmd r := by
  have hheight := height_le_length (t := t)
  refine insertFrom_spec t [] fuel h hsound hordered ?_ ?_ (by omega) hfuel
  · intro q hq
    cases hq
  · intro q hq
    cases hq

end Shell

end SlipBoard
