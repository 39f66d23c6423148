import SlipBoard.Shell.Model.AvlTree
/-!
# Shell — trees in memory

A tree of addresses is in memory (`Rep`) where each node links to its
children and back to its parent. The rest of the memory's tree is told by
the frames above (`RepCtx`), so that a place in the middle can be looked
at by itself: `Holds s fs t` says that `t` stands at the hole of `fs`.
Moving the view up or down a node changes nothing (`holds_cons`).

From that one lemma tells what a rotation does (`holds_rotate`), and one
what a scale does (`Holds.setScale`).
-/

namespace SlipBoard

namespace Shell

open SlipBoard.Balanced ScaleTree

variable {s s' : Avl} {d : Side} {p q : Ptr} {par : Option Ptr} {t u x y z : ScaleTree Ptr}
variable {fs : List (Frame Ptr)} {sc sc' : Scale} {hole : Option Ptr}

/-! ## Cells -/

/-- The node with a child on the side `d`, and one across. -/
def cell (d : Side) (par : Option Ptr) (sc : Scale) (near far : Option Ptr) : AvlNode :=
  match d with
  | .left => ⟨par, sc, near, far⟩
  | .right => ⟨par, sc, far, near⟩

section Cell

variable {near far link : Option Ptr}

@[simp] theorem cell_parent : (cell d par sc near far).parent = par := by cases d <;> rfl

@[simp] theorem cell_scale : (cell d par sc near far).scale = sc := by cases d <;> rfl

@[simp] theorem cell_child : (cell d par sc near far).child d = near := by cases d <;> rfl

@[simp] theorem cell_child_other : (cell d par sc near far).child d.other = far := by
  cases d <;> rfl

@[simp] theorem cell_withChild :
    (cell d par sc near far).withChild d link = cell d par sc link far := by
  cases d <;> rfl

@[simp] theorem cell_withChild_other :
    (cell d par sc near far).withChild d.other link = cell d par sc near link := by
  cases d <;> rfl

@[simp] theorem cell_with_parent :
    { cell d par sc near far with parent := link } = cell d link sc near far := by
  cases d <;> rfl

@[simp] theorem cell_with_scale :
    { cell d par sc near far with scale := sc' } = cell d par sc' near far := by
  cases d <;> rfl

end Cell

/-! ## Memory -/

@[simp] theorem upd_node_self (f : AvlNode → AvlNode) : (s.upd p f).node p = f (s.node p) :=
  Function.update_self _ _ _

theorem upd_node_of_ne {f : AvlNode → AvlNode} (h : q ≠ p) : (s.upd p f).node q = s.node q :=
  Function.update_of_ne h _ _

/-! ## Trees -/

/-- The tree is in memory, under the parent `par`: each node has the links
and the scale that the tree tells. -/
def Rep (s : Avl) : Option Ptr → ScaleTree Ptr → Prop
  | _, .nil => True
  | par, .node l p sc r =>
    s.node p = ⟨par, sc, l.root, r.root⟩ ∧ Rep s (some p) l ∧ Rep s (some p) r

theorem rep_join : Rep s par (join d t p sc u) ↔
    s.node p = cell d par sc t.root u.root ∧ Rep s (some p) t ∧ Rep s (some p) u := by
  cases d with
  | left => exact Iff.rfl
  | right => exact and_congr_right fun _ => and_comm

/-- The scale in memory is that of the tree. -/
theorem Rep.scale_eq (h : Rep s par t) (hroot : t.root = some p) : (s.node p).scale = t.scale := by
  cases t with
  | nil => cases hroot
  | node l q sc r =>
    cases hroot
    rw [h.1]
    rfl

/-- The parent that the root of a tree in memory has is the one it is under. -/
theorem Rep.parent_eq (h : Rep s par t) (hroot : t.root = some p) : (s.node p).parent = par := by
  cases t with
  | nil => cases hroot
  | node l q sc r =>
    cases hroot
    rw [h.1]

/-- A tree in memory rests on its own nodes alone. -/
theorem Rep.congr (h : Rep s par t) (hsame : ∀ q ∈ t.toList, s'.node q = s.node q) :
    Rep s' par t := by
  induction t generalizing par with
  | nil => trivial
  | node l p sc r ihl ihr =>
    obtain ⟨hp, hl, hr⟩ := h
    simp only [toList, List.mem_append, List.mem_cons] at hsame
    exact ⟨(hsame p (.inr (.inl rfl))).trans hp, ihl hl fun q hq => hsame q (.inl hq),
      ihr hr fun q hq => hsame q (.inr (.inr hq))⟩

theorem setParentIf_node_of_notMem (h : q ∉ t.toList) (link : Option Ptr) :
    (s.setParentIf t.root link).node q = s.node q := by
  cases t with
  | nil => rfl
  | node l p sc r =>
    show (s.setParent p link).node q = _
    refine upd_node_of_ne ?_
    rintro rfl
    exact h (root_mem rfl)

@[simp] theorem setParentIf_root (r link : Option Ptr) :
    (s.setParentIf r link).root = s.root := by
  cases r <;> rfl

/-- A tree is given another parent, and is otherwise as it was. -/
theorem Rep.setParentIf (h : Rep s par t) (hnodup : t.toList.Nodup) (link : Option Ptr) :
    Rep (s.setParentIf t.root link) link t := by
  cases t with
  | nil => trivial
  | node l p sc r =>
    obtain ⟨hp, hl, hr⟩ := h
    simp only [toList, List.nodup_append, List.nodup_cons, List.mem_cons] at hnodup
    show Rep (s.setParent p link) link (.node l p sc r)
    refine ⟨?_, hl.congr fun q hq => upd_node_of_ne ?_, hr.congr fun q hq => upd_node_of_ne ?_⟩
    · rw [Avl.setParent, upd_node_self, hp]
    · exact hnodup.2.2 q hq p (.inl rfl)
    · rintro rfl
      exact hnodup.2.1.1 hq

/-! ## Frames -/

/-- The node above a hole, and none at the root. -/
def top : List (Frame Ptr) → Option Ptr
  | [] => none
  | f :: _ => some f.elem

/-- The frames are in memory, with the link `hole` in their hole. -/
def RepCtx (s : Avl) : List (Frame Ptr) → Option Ptr → Prop
  | [], hole => s.root = hole
  | f :: fs, hole =>
    s.node f.elem = cell f.side (top fs) f.scale hole f.sibling.root ∧
      Rep s (some f.elem) f.sibling ∧ RepCtx s fs (some f.elem)

theorem RepCtx.congr (h : RepCtx s fs hole) (hsame : ∀ q ∈ elems fs, s'.node q = s.node q)
    (hroot : s'.root = s.root) : RepCtx s' fs hole := by
  induction fs generalizing hole with
  | nil => exact hroot.trans h
  | cons f fs ih =>
    obtain ⟨hf, hsib, hfs⟩ := h
    simp only [elems, List.flatMap_cons, List.cons_append, List.mem_cons, List.mem_append] at hsame
    exact ⟨(hsame _ (.inl rfl)).trans hf, hsib.congr fun q hq => hsame q (.inr (.inl hq)),
      ih hfs fun q hq => hsame q (.inr (.inr hq))⟩

theorem relink_node_of_notMem (h : q ∉ elems fs) (e : Side) (link : Option Ptr) :
    (s.relink (top fs) p e link).node q = s.node q := by
  cases fs with
  | nil => rfl
  | cons f fs =>
    have hne : q ≠ f.elem := by
      rintro rfl
      exact h List.mem_cons_self
    show (if _ then s.setChild _ _ _ else s.setChild _ _ _).node q = _
    split <;> exact upd_node_of_ne hne

theorem elems_cons (f : Frame Ptr) : elems (f :: fs) = f.elem :: (f.sibling.toList ++ elems fs) :=
  rfl

/-- The link in the hole is stored, in the node above. -/
theorem RepCtx.setChild {f : Frame Ptr} (h : RepCtx s (f :: fs) hole)
    (hnodup : (elems (f :: fs)).Nodup) (link : Option Ptr) :
    RepCtx (s.setChild f.elem f.side link) (f :: fs) link := by
  obtain ⟨hf, hsib, hfs⟩ := h
  rw [elems_cons, List.nodup_cons, List.mem_append, not_or] at hnodup
  refine ⟨?_, hsib.congr fun q hq => upd_node_of_ne ?_,
    hfs.congr (fun q hq => upd_node_of_ne ?_) rfl⟩
  · rw [Avl.setChild, upd_node_self, hf, cell_withChild]
  · exact ne_of_mem_of_not_mem hq hnodup.1.1
  · exact ne_of_mem_of_not_mem hq hnodup.1.2

/-- **The link in the hole is stored over**, whichever side is asked
first: the link across is not to `p`. -/
theorem RepCtx.relink (h : RepCtx s fs (some p)) (hp : p ∉ elems fs) (hnodup : (elems fs).Nodup)
    (e : Side) (link : Option Ptr) : RepCtx (s.relink (top fs) p e link) fs link := by
  cases fs with
  | nil => rfl
  | cons f fs =>
    obtain ⟨hf, hsib, hfs⟩ := h
    rw [elems_cons, List.mem_cons, List.mem_append, not_or, not_or] at hp
    have hset : s.relink (top (f :: fs)) p e link = s.setChild f.elem f.side link := by
      show (if _ then s.setChild _ _ _ else s.setChild _ _ _) = _
      by_cases he : e = f.side
      · rw [he, hf, cell_child, if_pos rfl]
      · have he' := Side.eq_other_of_ne he
        rw [he', hf, cell_child_other, if_neg fun hroot => hp.2.1 (root_mem hroot),
          Side.other_other]
    rw [hset]
    exact RepCtx.setChild ⟨hf, hsib, hfs⟩ hnodup link

/-! ## A place in a tree -/

/-- The tree `t` is in memory in the hole of `fs`. -/
structure Holds (s : Avl) (fs : List (Frame Ptr)) (t : ScaleTree Ptr) : Prop where
  above : RepCtx s fs t.root
  here : Rep s (top fs) t
  nodup : (t.toList ++ elems fs).Nodup

/-- **The view moves up a node, or down**: a tree in a hole is the same
memory as the larger tree in the hole above. -/
theorem holds_cons {f : Frame Ptr} : Holds s (f :: fs) t ↔ Holds s fs (f.attach t) := by
  have hperm : (t.toList ++ elems (f :: fs)).Perm ((f.attach t).toList ++ elems fs) := by
    rw [elems_cons]
    refine List.perm_middle.trans ?_
    rw [← List.append_assoc, ← List.cons_append]
    exact (perm_toList_join.symm).append_right _
  constructor
  · rintro ⟨⟨hf, hsib, hfs⟩, ht, hnodup⟩
    refine ⟨?_, rep_join.2 ⟨hf, ht, hsib⟩, hperm.nodup_iff.1 hnodup⟩
    rw [Frame.attach, root_join]
    exact hfs
  · rintro ⟨hfs, hjoin, hnodup⟩
    obtain ⟨hf, ht, hsib⟩ := rep_join.1 hjoin
    rw [Frame.attach, root_join] at hfs
    exact ⟨⟨hf, hsib, hfs⟩, ht, hperm.nodup_iff.2 hnodup⟩

/-- The whole tree is in memory where a part of it is. -/
theorem holds_plug : Holds s [] (plug fs t) ↔ Holds s fs t := by
  induction fs generalizing t with
  | nil => exact Iff.rfl
  | cons f fs ih => exact ih.trans holds_cons.symm

/-- The view moves over several nodes: a tree in the hole of some frames is
the tree with the nearest of them put around it. -/
theorem holds_append {gs : List (Frame Ptr)} : Holds s (gs ++ fs) t ↔ Holds s fs (plug gs t) := by
  induction gs generalizing t with
  | nil => exact Iff.rfl
  | cons g gs ih => exact holds_cons.trans ih

/-- The link to a node is on its side alone. -/
theorem Holds.child_iff {f : Frame Ptr} (h : Holds s (f :: fs) t) (hroot : t.root = some p)
    (e : Side) : (s.node f.elem).child e = some p ↔ e = f.side := by
  have hf := h.above.1
  rw [hroot] at hf
  rw [hf]
  by_cases he : e = f.side
  · rw [he]
    exact iff_of_true cell_child rfl
  · refine iff_of_false (fun heq => ?_) he
    rw [Side.eq_other_of_ne he, cell_child_other] at heq
    have hnodup := h.nodup
    rw [elems_cons, List.nodup_append] at hnodup
    exact hnodup.2.2 p (root_mem hroot) p
      (List.mem_cons_of_mem _ (List.mem_append_left _ (root_mem heq))) rfl

theorem Holds.node (h : Holds s fs (join d t p sc u)) :
    s.node p = cell d (top fs) sc t.root u.root :=
  (rep_join.1 h.here).1

/-- What the nodes being different means at a node. -/
theorem Holds.disjoint (h : Holds s fs (join d t p sc u)) :
    p ∉ t.toList ∧ p ∉ u.toList ∧ p ∉ elems fs ∧ (t.toList ++ (u.toList ++ elems fs)).Nodup := by
  have hnodup := (perm_toList_join.append_right _).nodup_iff.1 h.nodup
  rw [List.cons_append, List.nodup_cons, List.append_assoc] at hnodup
  simp only [List.mem_append, not_or] at hnodup
  exact ⟨hnodup.1.1, hnodup.1.2.1, hnodup.1.2.2, hnodup.2⟩

/-- A scale is set at the node in the hole, and the tree says the same. -/
theorem Holds.setScale (h : Holds s fs (join d t p sc u)) (x : Scale) :
    Holds (s.setScale p x) fs (join d t p x u) := by
  obtain ⟨hp, ht, hu⟩ := rep_join.1 h.here
  obtain ⟨hpt, hpu, hpfs, hnodup⟩ := h.disjoint
  have hsame : ∀ q, q ≠ p → (s.setScale p x).node q = s.node q := fun q hq => upd_node_of_ne hq
  refine ⟨?_, rep_join.2 ⟨?_, ?_, ?_⟩, ?_⟩
  · rw [root_join]
    have habove := h.above
    rw [root_join] at habove
    exact habove.congr (fun q hq => hsame q (ne_of_mem_of_not_mem hq hpfs)) rfl
  · rw [Avl.setScale, upd_node_self, hp, cell_with_scale]
  · exact ht.congr fun q hq => hsame q (ne_of_mem_of_not_mem hq hpt)
  · exact hu.congr fun q hq => hsame q (ne_of_mem_of_not_mem hq hpu)
  · have := h.nodup
    rwa [toList_join_congr rfl rfl] at this

/-! ## Rotations -/

/-- **A rotation** lifts the child on its side, and the tree across goes
over to the node that goes down. -/
theorem holds_rotate {c : Ptr} (h : Holds s fs (join d (join d x c sc' y) p sc z)) :
    ∃ s', s.rotate d p = some s' ∧ Holds s' fs (join d x c sc' (join d y p sc z)) := by
  obtain ⟨hp, hc, hz⟩ := rep_join.1 h.here
  rw [root_join] at hp
  obtain ⟨hc, hx, hy⟩ := rep_join.1 hc
  have habove := h.above
  rw [root_join] at habove
  have hbelow : Holds s (⟨d, p, sc, z⟩ :: fs) (join d x c sc' y) := holds_cons.2 h
  obtain ⟨hcx, hcy, hcabove, hnodup⟩ := hbelow.disjoint
  rw [elems_cons, List.mem_cons, List.mem_append, not_or, not_or] at hcabove
  rw [elems_cons] at hnodup
  simp only [List.nodup_append, List.nodup_cons, List.mem_append, List.mem_cons, not_or] at hnodup
  obtain ⟨hxnodup, ⟨hynodup, ⟨⟨hpz, hpfs⟩, hznodup, hfsnodup, hzfs⟩, hyabove⟩, hxothers⟩ := hnodup
  obtain ⟨hcp, hcz, hcfs⟩ := hcabove
  have hpy : p ∉ y.toList := fun hmem => hyabove p hmem p (.inl rfl) rfl
  have hrot : s.rotate d p = some ((((((s.setChild p d y.root).setParentIf y.root
      (some p)).setChild c d.other (some p)).setParent c (top fs)).relink (top fs) p d.other
        (some c)).setParent p (some c)) := by
    rw [Avl.rotate, hp, cell_child, cell_parent]
    show some _ = some _
    rw [hc, cell_child_other]
  refine ⟨_, hrot, ?_⟩
  set s₁ := (s.setChild p d y.root).setParentIf y.root (some p) with hs₁
  set s₂ := (s₁.setChild c d.other (some p)).setParent c (top fs) with hs₂
  set s₃ := s₂.relink (top fs) p d.other (some c) with hs₃
  -- what each step leaves alone
  have h₁ : ∀ q, q ≠ p → q ∉ y.toList → s₁.node q = s.node q := fun q hq hqy =>
    (setParentIf_node_of_notMem hqy _).trans (upd_node_of_ne hq)
  have h₂ : ∀ q, q ≠ c → s₂.node q = s₁.node q := fun q hq =>
    (upd_node_of_ne hq).trans (upd_node_of_ne hq)
  have h₃ : ∀ q, q ∉ elems fs → s₃.node q = s₂.node q := fun q hq => relink_node_of_notMem hq _ _
  have h₄ : ∀ q, q ≠ p → (s₃.setParent p (some c)).node q = s₃.node q := fun q hq =>
    upd_node_of_ne hq
  have hp₁ : s₁.node p = cell d (top fs) sc y.root z.root := by
    rw [hs₁, setParentIf_node_of_notMem hpy, Avl.setChild, upd_node_self, hp, cell_withChild]
  have hc₂ : s₂.node c = cell d (top fs) sc' x.root (some p) := by
    rw [hs₂, Avl.setParent, upd_node_self, Avl.setChild, upd_node_self, h₁ c hcp hcy, hc,
      cell_withChild_other, cell_with_parent]
  have hy₁ : Rep s₁ (some p) y := by
    refine Rep.setParentIf (hy.congr fun q hq => upd_node_of_ne ?_) hynodup _
    exact ne_of_mem_of_not_mem hq hpy
  have hfs₂ : RepCtx s₂ fs (some p) := by
    refine habove.congr (fun q hq => ?_) ?_
    · rw [h₂ q (ne_of_mem_of_not_mem hq hcfs), h₁ q (ne_of_mem_of_not_mem hq hpfs)]
      exact fun hqy => hyabove q hqy q (.inr (.inr hq)) rfl
    · exact setParentIf_root _ _
  have hfs₃ : RepCtx s₃ fs (some c) := hfs₂.relink hpfs hfsnodup _ _
  refine ⟨?_, rep_join.2 ⟨?_, ?_, rep_join.2 ⟨?_, ?_, ?_⟩⟩, ?_⟩
  · rw [root_join]
    exact hfs₃.congr (fun q hq => h₄ q (ne_of_mem_of_not_mem hq hpfs)) rfl
  · rw [root_join, h₄ c hcp, h₃ c hcfs, hc₂]
  · refine hx.congr fun q hq => ?_
    have hqy : q ∉ y.toList := fun hmem => hxothers q hq q (.inl hmem) rfl
    have hqp : q ≠ p := hxothers q hq p (.inr (.inl rfl))
    have hqfs : q ∉ elems fs := fun hmem => hxothers q hq q (.inr (.inr (.inr hmem))) rfl
    rw [h₄ q hqp, h₃ q hqfs, h₂ q (ne_of_mem_of_not_mem hq hcx), h₁ q hqp hqy]
  · rw [Avl.setParent, upd_node_self, h₃ p hpfs, h₂ p (Ne.symm hcp), hp₁, cell_with_parent]
  · refine hy₁.congr fun q hq => ?_
    have hqfs : q ∉ elems fs := fun hmem => hyabove q hq q (.inr (.inr hmem)) rfl
    rw [h₄ q (ne_of_mem_of_not_mem hq hpy), h₃ q hqfs, h₂ q (ne_of_mem_of_not_mem hq hcy)]
  · refine hz.congr fun q hq => ?_
    have hqy : q ∉ y.toList := fun hmem => hyabove q hmem q (.inr (.inl hq)) rfl
    have hqp : q ≠ p := ne_of_mem_of_not_mem hq hpz
    have hqfs : q ∉ elems fs := fun hmem => hzfs q hq q hmem rfl
    rw [h₄ q hqp, h₃ q hqfs, h₂ q (ne_of_mem_of_not_mem hq hcz), h₁ q hqp hqy]
  · rw [toList_rotate]
    exact h.nodup

/-- The two rotations that lift a grandchild from between. -/
theorem holds_rotate_twice {c i : Ptr} {si : Scale}
    (h : Holds s fs (join d (join d x c sc' (join d y i si z)) p sc u)) :
    ∃ s₁ s₂, s.rotate d.other c = some s₁ ∧ s₁.rotate d p = some s₂ ∧
      Holds s₂ fs (join d (join d x c sc' y) i si (join d z p sc u)) := by
  have hbelow : Holds s (⟨d, p, sc, u⟩ :: fs)
      (join d.other (join d.other z i si y) c sc' x) := by
    rw [join_other, join_other]
    exact holds_cons.2 h
  obtain ⟨s₁, hs₁, h₁⟩ := holds_rotate hbelow
  rw [join_other, join_other] at h₁
  obtain ⟨s₂, hs₂, h₂⟩ := holds_rotate (holds_cons.1 h₁)
  exact ⟨s₁, s₂, hs₁, hs₂, h₂⟩

/-- A scale is set at the child on the side `d`, and the tree says the same. -/
theorem Holds.setScale_near {c : Ptr} (h : Holds s fs (join d (join d x c sc' y) p sc u))
    (k : Scale) : Holds (s.setScale c k) fs (join d (join d x c k y) p sc u) := by
  have hbelow : Holds s (⟨d, p, sc, u⟩ :: fs) (join d x c sc' y) := holds_cons.2 h
  exact holds_cons.1 (hbelow.setScale k)

/-- A scale is set at the child across, and the tree says the same. -/
theorem Holds.setScale_far {c : Ptr} (h : Holds s fs (join d u p sc (join d x c sc' y)))
    (k : Scale) : Holds (s.setScale c k) fs (join d u p sc (join d x c k y)) := by
  rw [← join_other] at h ⊢
  rw [← join_other (d := d) (t := y)] at h ⊢
  exact h.setScale_near k

end Shell

end SlipBoard
