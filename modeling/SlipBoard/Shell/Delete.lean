import SlipBoard.Shell.Balance
/-!
# Shell — deletion

A node with a child at most is taken out, and its child linked in its
place (`holds_unlink`). Of a node with two children the place is taken by
the least node on the right (`holds_takePlace`), which is taken out where
it was. Either way a subtree has shrunk by one, and `avl_delete` climbs
back (`avlDelete_spec`).
-/

namespace SlipBoard

namespace Shell

open SlipBoard.Balanced ScaleTree

variable {s s' : Avl} {d : Side} {p q m : Ptr} {t u : ScaleTree Ptr} {par : Option Ptr}
variable {fs : List (Frame Ptr)} {sc : Scale}

/-! ## The order of stores -/

theorem upd_comm (h : p ≠ q) (f g : AvlNode → AvlNode) :
    (s.upd p f).upd q g = (s.upd q g).upd p f := by
  unfold Avl.upd
  simp only [Function.update_of_ne h, Function.update_of_ne h.symm,
    Function.update_comm h]

/-- A store apart from the frames may be made before the link above them
is stored over, or after. -/
theorem relink_upd_comm (h : q ∉ elems fs) (e : Side) (link : Option Ptr) (g : AvlNode → AvlNode) :
    (s.upd q g).relink (top fs) p e link = (s.relink (top fs) p e link).upd q g := by
  cases fs with
  | nil => rfl
  | cons f fs =>
    have hne : f.elem ≠ q := by
      rintro rfl
      exact h List.mem_cons_self
    show (if ((s.upd q g).node f.elem).child e = some p then _ else _) =
      Avl.upd (if _ then _ else _) _ _
    rw [upd_node_of_ne hne]
    split
    · exact (upd_comm hne _ _).symm
    · exact (upd_comm hne _ _).symm

theorem relink_setParentIf_comm (h : ∀ q ∈ t.toList, q ∉ elems fs) (e : Side)
    (link x : Option Ptr) :
    (s.setParentIf t.root x).relink (top fs) p e link =
      (s.relink (top fs) p e link).setParentIf t.root x := by
  cases t with
  | nil => rfl
  | node l q sc r =>
    show (s.setParent q x).relink _ _ _ _ = (s.relink _ _ _ _).setParent q x
    exact relink_upd_comm (h q (root_mem rfl)) _ _ _

theorem copyParent_upd_comm (hm : q ≠ m) (hp : q ≠ p) (g : AvlNode → AvlNode) :
    (s.upd q g).copyParent m p = (s.copyParent m p).upd q g := by
  unfold Avl.copyParent
  rw [upd_node_of_ne hp.symm]
  exact upd_comm hm _ _

theorem setParentIf_upd_comm (h : q ∉ t.toList) (link : Option Ptr) (g : AvlNode → AvlNode) :
    (s.upd q g).setParentIf t.root link = (s.setParentIf t.root link).upd q g := by
  cases t with
  | nil => rfl
  | node l r sc u =>
    have hne : q ≠ r := by
      rintro rfl
      exact h (root_mem rfl)
    exact upd_comm hne g fun n => { n with parent := link }

theorem setParentIf_copyParent_comm (hm : m ∉ t.toList) (hp : p ∉ t.toList) (link : Option Ptr) :
    (s.copyParent m p).setParentIf t.root link = (s.setParentIf t.root link).copyParent m p := by
  cases t with
  | nil => rfl
  | node l r sc u =>
    have hrm : r ≠ m := by
      rintro rfl
      exact hm (root_mem rfl)
    have hrp : r ≠ p := by
      rintro rfl
      exact hp (root_mem rfl)
    exact (copyParent_upd_comm hrm hrp fun n => { n with parent := link }).symm

/-- **The stores of a deletion from the middle, in another order**: first
the least node is taken out, then it takes the place of `p`. -/
theorem deletion_order {g left right : Ptr} {c : ScaleTree Ptr} (hg : g ∉ elems fs)
    (hc : ∀ q ∈ c.toList, q ∉ elems fs) (hm : m ∉ c.toList) (hp : p ∉ c.toList)
    (hleft : left ∉ c.toList) (hright : right ∉ c.toList) :
    (((((((s.relink (top fs) p .left (some m)).setChild g .left c.root).setChild m .right
      (some right)).setParent right (some m)).copyParent m p).setChild m .left
        (some left)).setParent left (some m)).setParentIf c.root (some g) =
    (((((((s.setChild g .left c.root).setParentIf c.root (some g)).relink (top fs) p .left
      (some m)).setChild m .right (some right)).setParent right (some m)).copyParent m p).setChild m
        .left (some left)).setParent left (some m) := by
  unfold Avl.setParent Avl.setChild
  rw [setParentIf_upd_comm hleft, setParentIf_upd_comm hm, setParentIf_copyParent_comm hm hp,
    setParentIf_upd_comm hright, setParentIf_upd_comm hm, relink_setParentIf_comm hc,
    relink_upd_comm hg]

/-! ## A node with a child at most -/

/-- **A node is taken out**: where it has no left child, its right one takes
its place, with the links of both. -/
theorem holds_unlink (h : Holds s fs (join d .nil p sc t)) :
    Holds ((s.setParentIf t.root (top fs)).relink (top fs) p .left t.root) fs t := by
  obtain ⟨-, -, ht⟩ := rep_join.1 h.here
  obtain ⟨-, hpt, hpfs, hnodup⟩ := h.disjoint
  rw [toList, List.nil_append] at hnodup
  obtain ⟨htnodup, hfsnodup, hdisjoint⟩ := List.nodup_append.1 hnodup
  have habove := h.above
  rw [root_join] at habove
  have habove' : RepCtx (s.setParentIf t.root (top fs)) fs (some p) :=
    habove.congr (fun q hq => setParentIf_node_of_notMem
      (fun hmem => hdisjoint q hmem q hq rfl) _) (setParentIf_root _ _)
  refine ⟨habove'.relink hpfs hfsnodup _ _, ?_, hnodup⟩
  exact (ht.setParentIf htnodup (top fs)).congr fun q hq =>
    relink_node_of_notMem (fun hmem => hdisjoint q hq q hmem rfl) _ _

/-- **The deletion of a node with a child at most**: the child takes its
place, and the tree is balanced again up to the root. -/
theorem deleteSingle_spec {fuel : ℕ} (h : Holds s fs (join d .nil p sc t))
    (hsound : Sound (plug fs (join d .nil p sc t)))
    (hfuel : (plug fs (join d .nil p sc t)).toList.length < fuel) :
    ∃ s', deleteSingle fuel s p t.root = some s' ∧ Settled (plug fs t).toList s' := by
  obtain ⟨hattach, hfits⟩ := (sound_plug fs _).1 hsound
  obtain ⟨-, ht, hleans⟩ := sound_join.1 hattach
  rw [height_join] at hfits
  have hunlink := holds_unlink h
  have hparent : (s.node p).parent = top fs := by rw [h.node, cell_parent]
  unfold deleteSingle
  rw [hparent]
  cases fs with
  | nil =>
    cases t with
    | nil => exact ⟨_, rfl, .nil, hunlink, trivial, rfl⟩
    | node l c k r =>
      -- what is left is a leaf, and balanced already
      have hheight : l.height = 0 ∧ r.height = 0 := by
        simp only [height] at hleans
        rcases Scale.cases d sc with rfl | rfl | rfl
        · rw [leans_balanced] at hleans
          omega
        · rw [leans_tilt] at hleans
          omega
        · rw [leans_tilt_other] at hleans
          omega
      have hleaf : Holds _ [] (join .left l c k r) := hunlink
      refine ⟨_, rfl, join .left l c .balanced r, hleaf.setScale .balanced, ?_, rfl⟩
      exact sound_join.2 ⟨ht.1, ht.2.1, leans_balanced.2 (hheight.1.trans hheight.2.symm)⟩
  | cons f fs =>
    have hbelow : Holds s (f :: fs) (join d .nil p sc t) := h
    have hpath := hbelow.pathLeft root_join
    have hft : f.elem ∉ t.toList := by
      obtain ⟨-, -, -, hnodup⟩ := h.disjoint
      rw [toList, List.nil_append, List.nodup_append] at hnodup
      exact fun hmem => hnodup.2.2 _ hmem _ List.mem_cons_self rfl
    rw [← setParentIf_node_of_notMem (s := s) hft (top (f :: fs))] at hpath
    have hnodes := (perm_plug (f :: fs) t).length_eq
    have hnodes' := (perm_plug (f :: fs) (join d .nil p sc t)).length_eq
    have hjoin := (perm_toList_join (d := d) (t := .nil) (a := p) (s := sc) (u := t)).length_eq
    have hframes := length_le_elems (f :: fs)
    rw [List.length_append] at hnodes hnodes'
    rw [toList, List.nil_append, List.length_cons] at hjoin
    show ∃ s', deleteTrack fuel fuel _ 1 (some f.elem) _ = some s' ∧ _
    rw [hpath]
    refine deleteTrack_spec (f :: fs) fuel _ t 1 _ hunlink ht ?_ (by decide) rfl (by omega)
      (by omega)
    rwa [show height (.nil : ScaleTree Ptr) = 0 from rfl, Nat.zero_max] at hfits

/-! ## A node with two children -/

/-- **The way to the left end** of a tree ends at its first node, which has
no left child. -/
theorem leftmost_spec : ∀ (t : ScaleTree Ptr) (par : Option Ptr) (rounds : ℕ) (q : Ptr), Rep s par t →
    t.root = some q → t.height ≤ rounds →
    ∃ spine m k c, t = plug spine (.node .nil m k c) ∧ (∀ f ∈ spine, f.side = .left) ∧
      leftmost s rounds q = some m := by
  intro t
  induction t with
  | nil =>
    intro par rounds q _ hroot
    cases hroot
  | node l p k r ihl _ =>
    intro par rounds q h hroot hrounds
    cases hroot
    obtain ⟨hp, hl, -⟩ := h
    rw [height] at hrounds
    obtain ⟨rounds, rfl⟩ : ∃ n, rounds = n + 1 := ⟨rounds - 1, by omega⟩
    rw [leftmost, hp]
    cases l with
    | nil => exact ⟨[], p, k, r, rfl, fun _ hf => absurd hf List.not_mem_nil, rfl⟩
    | node l₁ q k₁ r₁ =>
      obtain ⟨spine, m, k₂, c, heq, hleft, hrun⟩ := ihl (some p) rounds q hl rfl (by omega)
      refine ⟨spine ++ [⟨.left, p, k, r⟩], m, k₂, c, ?_, ?_, hrun⟩
      · rw [plug_append, ← heq]
        rfl
      · intro f hf
        rw [List.mem_append, List.mem_singleton] at hf
        rcases hf with hf | rfl
        · exact hleft f hf
        · rfl

/-- The left end is taken out, whose link is on the left. -/
theorem holds_takeOut {f : Frame Ptr} {c : ScaleTree Ptr} {k : Scale}
    (h : Holds s (f :: fs) (.node .nil m k c)) (hside : f.side = .left) :
    Holds ((s.setChild f.elem .left c.root).setParentIf c.root (some f.elem)) (f :: fs) c := by
  have hunlink : Holds ((s.setParentIf c.root (some f.elem)).relink (some f.elem) m .left c.root)
      (f :: fs) c := holds_unlink (d := .left) h
  have hcs : ∀ q ∈ c.toList, q ∉ elems (f :: fs) := fun q hq hmem =>
    (List.nodup_append.1 hunlink.nodup).2.2 q hq q hmem rfl
  have hset : s.relink (some f.elem) m .left c.root = s.setChild f.elem .left c.root :=
    if_pos ((h.child_iff rfl .left).2 hside.symm)
  have hcomm := relink_setParentIf_comm (s := s) (p := m) hcs .left c.root (some f.elem)
  rw [← hset]
  exact hcomm ▸ hunlink

/-- **A free node takes the place of `p`**, where the links to it and its
right child are stored already. -/
theorem holds_takePlace {l r : ScaleTree Ptr} {x : Option Ptr} (habove : RepCtx s fs (some m))
    (hp : s.node p = ⟨top fs, sc, l.root, x⟩) (hl : Rep s par l) (hr : Rep s (some m) r)
    (hright : (s.node m).right = r.root)
    (hnodup : (m :: (l.toList ++ (r.toList ++ elems fs))).Nodup) :
    Holds (((s.copyParent m p).setChild m .left l.root).setParentIf l.root (some m)) fs
      (.node l m sc r) := by
  obtain ⟨hm, hothers⟩ := List.nodup_cons.1 hnodup
  simp only [List.mem_append, not_or] at hm
  obtain ⟨hml, hmr, hmfs⟩ := hm
  obtain ⟨hlnodup, hrest, hdisjoint⟩ := List.nodup_append.1 hothers
  set s₂ := (s.copyParent m p).setChild m .left l.root with hs₂
  have h₂ : ∀ q, q ≠ m → s₂.node q = s.node q := fun q hq =>
    (upd_node_of_ne hq).trans (upd_node_of_ne hq)
  have hm₂ : s₂.node m = ⟨top fs, sc, l.root, r.root⟩ := by
    rw [hs₂, Avl.setChild, upd_node_self, Avl.copyParent, upd_node_self, hp, ← hright]
    rfl
  have hframe : ∀ q, q ∉ l.toList → q ≠ m → (s₂.setParentIf l.root (some m)).node q = s.node q :=
    fun q hql hqm => (setParentIf_node_of_notMem hql _).trans (h₂ q hqm)
  refine ⟨?_, ⟨?_, ?_, ?_⟩, ?_⟩
  · refine habove.congr (fun q hq => hframe q ?_ (ne_of_mem_of_not_mem hq hmfs))
      (setParentIf_root _ _)
    exact fun hql => hdisjoint q hql q (List.mem_append_right _ hq) rfl
  · rw [setParentIf_node_of_notMem hml, hm₂]
  · exact (hl.congr fun q hq => h₂ q (ne_of_mem_of_not_mem hq hml)).setParentIf hlnodup _
  · refine hr.congr fun q hq => hframe q ?_ (ne_of_mem_of_not_mem hq hmr)
    exact fun hql => hdisjoint q hql q (List.mem_append_left _ hq) rfl
  · refine (List.Perm.nodup_iff ?_).1 hnodup
    simp only [toList, List.append_assoc, List.cons_append]
    exact List.perm_middle.symm

/-- **A free node takes the place of `p`**, with all the links. -/
theorem holds_replace {l r : ScaleTree Ptr} (h : Holds s fs (.node l p sc r))
    (hnodup : (p :: m :: (l.toList ++ (r.toList ++ elems fs))).Nodup) :
    Holds ((((((s.relink (top fs) p .left (some m)).setChild m .right r.root).setParentIf r.root
      (some m)).copyParent m p).setChild m .left l.root).setParentIf l.root (some m)) fs
        (.node l m sc r) := by
  obtain ⟨hp, hl, hr⟩ := h.here
  obtain ⟨hpall, hmall⟩ := List.nodup_cons.1 hnodup
  obtain ⟨hmrest, hrest⟩ := List.nodup_cons.1 hmall
  simp only [List.mem_cons, List.mem_append, not_or] at hpall hmrest
  obtain ⟨hpm, hpl, hpr, hpfs⟩ := hpall
  obtain ⟨hml, hmr, hmfs⟩ := hmrest
  obtain ⟨-, hrfs, hldisjoint⟩ := List.nodup_append.1 hrest
  obtain ⟨hrnodup, hfsnodup, hrdisjoint⟩ := List.nodup_append.1 hrfs
  set s₁ := s.relink (top fs) p .left (some m)
  set s₂ := s₁.setChild m .right r.root
  have h₁ : ∀ q, q ∉ elems fs → s₁.node q = s.node q := fun q hq => relink_node_of_notMem hq _ _
  have h₂ : ∀ q, q ≠ m → s₂.node q = s₁.node q := fun q hq => upd_node_of_ne hq
  have h₃ : ∀ q, q ∉ r.toList → (s₂.setParentIf r.root (some m)).node q = s₂.node q :=
    fun q hq => setParentIf_node_of_notMem hq _
  refine holds_takePlace (RepCtx.congr (h.above.relink hpfs hfsnodup .left (some m)) ?_ ?_)
    (((h₃ p hpr).trans ((h₂ p hpm).trans (h₁ p hpfs))).trans hp) (hl.congr fun q hq => ?_)
    (Rep.setParentIf (hr.congr fun q hq => ?_) hrnodup _) ?_ hmall
  · intro q hq
    exact (h₃ q fun hmem => hrdisjoint q hmem q hq rfl).trans (h₂ q (ne_of_mem_of_not_mem hq hmfs))
  · exact setParentIf_root _ _
  · have hqr : q ∉ r.toList := fun hmem => hldisjoint q hq q (List.mem_append_left _ hmem) rfl
    have hqfs : q ∉ elems fs := fun hmem => hldisjoint q hq q (List.mem_append_right _ hmem) rfl
    rw [h₃ q hqr, h₂ q (ne_of_mem_of_not_mem hq hml), h₁ q hqfs]
  · have hqfs : q ∉ elems fs := fun hmem => hrdisjoint q hq q hmem rfl
    rw [h₂ q (ne_of_mem_of_not_mem hq hmr), h₁ q hqfs]
  · rw [h₃ m hmr]
    show ((s₁.setChild m .right r.root).node m).right = r.root
    rw [Avl.setChild, upd_node_self, AvlNode.withChild]

/-- The nodes of a deletion from the middle are different. -/
theorem Holds.nodup_double {l c : ScaleTree Ptr} {spine : List (Frame Ptr)} {k : Scale}
    (h : Holds s fs (.node l p sc (plug spine (.node .nil m k c)))) :
    (p :: m :: (l.toList ++ ((plug spine c).toList ++ elems fs))).Nodup := by
  have hperm : (plug spine (.node .nil m k c)).toList.Perm (m :: (plug spine c).toList) := by
    refine (perm_plug spine _).trans (List.Perm.trans ?_ ((perm_plug spine c).symm.cons m))
    rfl
  refine (List.Perm.nodup_iff ?_).1 h.nodup
  rw [toList, List.append_assoc, List.cons_append]
  refine List.perm_middle.trans (List.Perm.cons p ?_)
  refine ((hperm.append_right _).append_left _).trans ?_
  exact List.perm_middle

/-- What is left to do after the place is taken: the climb. -/
theorem deleteDouble_climb {fuel : ℕ} {l c : ScaleTree Ptr} {spine : List (Frame Ptr)} {k : Scale}
    {path : Side} (h : Holds s' fs (.node l m sc (plug spine c)))
    (hsound : Sound (plug fs (.node l p sc (plug spine (.node .nil m k c)))))
    (hleft : ∀ f ∈ spine, f.side = .left)
    (hfuel : (plug fs (.node l p sc (plug spine (.node .nil m k c)))).toList.length < fuel)
    (hpath : PathOf path (spine ++ ⟨.right, m, sc, l⟩ :: fs)) :
    ∃ t, deleteTrack fuel fuel s' 1 (top (spine ++ ⟨.right, m, sc, l⟩ :: fs)) path = some t ∧
      Settled (before fs ++ l.toList ++ (plug spine (.node .nil m k c)).toList ++ after fs) t := by
  have hholds : Holds s' (spine ++ ⟨.right, m, sc, l⟩ :: fs) c := holds_append.2 (holds_cons.2 h)
  have hwhole : plug fs (.node l p sc (plug spine (.node .nil m k c))) =
      plug (spine ++ ⟨.right, p, sc, l⟩ :: fs) (.node .nil m k c) := by
    rw [plug_append]
    rfl
  rw [hwhole] at hsound hfuel
  obtain ⟨⟨-, hc, -⟩, hfits⟩ := (sound_plug _ _).1 hsound
  have hlist : before fs ++ l.toList ++ (plug spine (.node .nil m k c)).toList ++ after fs =
      (plug (spine ++ ⟨.right, m, sc, l⟩ :: fs) c).toList := by
    rw [toList_plug, toList_plug, before_append, after_append, before_eq_nil hleft]
    simp [before, after, toList]
  have hframes := length_le_elems (spine ++ ⟨.right, m, sc, l⟩ :: fs)
  have hnodes := (perm_plug (spine ++ ⟨.right, m, sc, l⟩ :: fs) c).length_eq
  have hnodes' := (perm_plug (spine ++ ⟨.right, p, sc, l⟩ :: fs) (.node .nil m k c)).length_eq
  simp only [elems, List.flatMap_append, List.flatMap_cons, List.length_append, List.length_cons,
    toList, List.nil_append] at hframes hnodes hnodes'
  rw [hlist]
  refine deleteTrack_spec _ fuel s' c 1 path hholds hc ?_ (by decide) hpath ?_ (by omega)
  · have hheight : height (.node .nil m k c) = c.height + 1 := by
      rw [height, show height (.nil : ScaleTree Ptr) = 0 from rfl, Nat.zero_max]
    rw [hheight] at hfits
    exact fits_elem hfits
  · simp only [List.length_append, List.length_cons]
    omega

/-- The statements of the deletion, where the least node on the right has
the parent `g`. -/
theorem deleteDouble_eq {fuel : ℕ} {left right g : Ptr} (hrun : leftmost s fuel right = some m)
    (hp : (s.node p).parent = top fs)
    (hg : ((s.relink (top fs) p .left (some m)).node m).parent = some g) :
    deleteDouble fuel s p left right =
      if g = p then
        deleteTrack fuel fuel ((((s.relink (top fs) p .left (some m)).copyParent m p).setChild m
          .left (some left)).setParent left (some m)) 1 (some m) .right
      else
        deleteTrack fuel fuel ((((((((s.relink (top fs) p .left (some m)).setChild g .left
          ((s.relink (top fs) p .left (some m)).node m).right).setChild m .right
            (some right)).setParent right (some m)).copyParent m p).setChild m .left
              (some left)).setParent left (some m)).setParentIf
                ((s.relink (top fs) p .left (some m)).node m).right (some g)) 1 (some g) .left := by
  simp only [deleteDouble, hrun, hp, hg, Option.bind_eq_bind, Option.bind_some]

/-- **The deletion of a node with two children**: its successor is taken out
and put into its place, and the others stay in their order. -/
theorem deleteDouble_spec {fuel : ℕ} {l r : ScaleTree Ptr} {left right : Ptr}
    (h : Holds s fs (.node l p sc r)) (hlroot : l.root = some left) (hrroot : r.root = some right)
    (hsound : Sound (plug fs (.node l p sc r)))
    (hfuel : (plug fs (.node l p sc r)).toList.length < fuel) :
    ∃ s', deleteDouble fuel s p left right = some s' ∧
      Settled (before fs ++ l.toList ++ r.toList ++ after fs) s' := by
  obtain ⟨hp, hl, hr⟩ := h.here
  have hheight : r.height ≤ fuel := by
    have := height_le_length (t := r)
    rw [toList_plug, toList] at hfuel
    simp only [List.length_append, List.length_cons] at hfuel
    omega
  obtain ⟨spine, m, k, c, rfl, hleft, hrun⟩ := leftmost_spec r (some p) fuel right hr hrroot hheight
  have hnodup := h.nodup_double
  obtain ⟨hpall, hmall⟩ := List.nodup_cons.1 hnodup
  obtain ⟨hmrest, hrest⟩ := List.nodup_cons.1 hmall
  simp only [List.mem_cons, List.mem_append, not_or] at hpall hmrest
  obtain ⟨hpm, hpl, hpR, hpfs⟩ := hpall
  obtain ⟨hml, hmR, hmfs⟩ := hmrest
  obtain ⟨hlnodup, hRfs, hldisjoint⟩ := List.nodup_append.1 hrest
  obtain ⟨hRnodup, hfsnodup, hRdisjoint⟩ := List.nodup_append.1 hRfs
  have hrelink : RepCtx (s.relink (top fs) p .left (some m)) fs (some m) :=
    h.above.relink hpfs hfsnodup _ _
  have hm₁ : (s.relink (top fs) p .left (some m)).node m = s.node m :=
    relink_node_of_notMem hmfs _ _
  have hparent : (s.node p).parent = top fs := by rw [hp]
  cases spine with
  | nil =>
    obtain ⟨hm, -, hc⟩ := hr
    have htake := holds_takePlace hrelink ((relink_node_of_notMem hpfs _ _).trans hp)
      (hl.congr fun q hq => relink_node_of_notMem
        (fun hmem => hldisjoint q hq q (List.mem_append_right _ hmem) rfl) _ _)
      (hc.congr fun q hq => relink_node_of_notMem (fun hmem => hRdisjoint q hq q hmem rfl) _ _)
      (show _ = c.root by rw [hm₁, hm]) hmall
    rw [hlroot] at htake
    rw [deleteDouble_eq hrun hparent (by rw [hm₁, hm]), if_pos rfl]
    exact deleteDouble_climb (show Holds _ fs (.node l m sc (plug [] c)) from htake) hsound hleft
      hfuel rfl
  | cons f spine =>
    have hgs : Holds s ((f :: spine) ++ ⟨.right, p, sc, l⟩ :: fs) (.node .nil m k c) :=
      holds_append.2 (holds_cons.2 h)
    have hm : s.node m = ⟨some f.elem, k, none, c.root⟩ := hgs.here.1
    have hside : f.side = .left := hleft f List.mem_cons_self
    have hfmem : f.elem ∈ (plug (f :: spine) c).toList := by
      rw [(perm_plug _ _).mem_iff]
      exact List.mem_append_right _ List.mem_cons_self
    have hcmem : ∀ q ∈ c.toList, q ∈ (plug (f :: spine) c).toList := by
      intro q hq
      rw [(perm_plug _ _).mem_iff]
      exact List.mem_append_left _ hq
    have hcfs : ∀ q ∈ c.toList, q ∉ elems fs := fun q hq hmem =>
      hRdisjoint q (hcmem q hq) q hmem rfl
    have hRroot : (plug (f :: spine) c).root = some right := (root_plug).trans hrroot
    have hrightc : right ∉ c.toList := by
      have hcspine := (perm_plug (f :: spine) c).nodup_iff.1 hRnodup
      exact fun hmem => (List.nodup_append.1 hcspine).2.2 _ hmem _ (root_plug_mem hRroot) rfl
    have hleftc : left ∉ c.toList := fun hmem => hldisjoint left (root_mem hlroot) left
      (List.mem_append_left _ (hcmem left hmem)) rfl
    -- the least node is taken out
    have hout : Holds _ ((f :: spine) ++ ⟨.right, p, sc, l⟩ :: fs) c := holds_takeOut hgs hside
    -- and put in the place of `p`
    have hR : Holds _ fs (.node l p sc (plug (f :: spine) c)) := holds_cons.1 (holds_append.1 hout)
    have htake := holds_replace hR hnodup
    rw [hRroot, hlroot] at htake
    have hne : f.elem ≠ p := fun heq => hpR (heq ▸ hfmem)
    rw [deleteDouble_eq hrun hparent (by rw [hm₁, hm]), if_neg hne, hm₁, hm,
      deletion_order (fun hmem => hRdisjoint _ hfmem _ hmem rfl) hcfs
        (fun hmem => hmR (hcmem m hmem)) (fun hmem => hpR (hcmem p hmem)) hleftc hrightc]
    exact deleteDouble_climb htake hsound hleft hfuel hside.symm

/-- **The deletion of a node**: the others stay, in their order, in a tree
that is balanced. -/
theorem avlDelete_spec {fuel : ℕ} (h : Holds s [] t) (hsound : Sound t) (hp : p ∈ t.toList)
    (hfuel : t.toList.length < fuel) :
    ∃ s' front back, avlDelete fuel s p = some s' ∧ t.toList = front ++ p :: back ∧
      Settled (front ++ back) s' := by
  obtain ⟨fs, l, sc, r, rfl⟩ := exists_plug hp
  have hplace : Holds s fs (.node l p sc r) := holds_plug.1 h
  have hnode : s.node p = ⟨top fs, sc, l.root, r.root⟩ := hplace.here.1
  have hdelete : ∃ s', avlDelete fuel s p = some s' ∧
      Settled ((before fs ++ l.toList) ++ (r.toList ++ after fs)) s' := by
    unfold avlDelete
    rw [hnode]
    cases l with
    | nil =>
      obtain ⟨s', hs', hsettled⟩ := deleteSingle_spec (d := .left) hplace hsound hfuel
      refine ⟨s', hs', ?_⟩
      rw [toList_plug, List.append_assoc] at hsettled
      rwa [toList, List.append_nil]
    | node x q k y =>
      cases r with
      | nil =>
        obtain ⟨s', hs', hsettled⟩ :=
          deleteSingle_spec (d := .right) (t := .node x q k y) hplace hsound hfuel
        refine ⟨s', hs', ?_⟩
        rwa [toList_plug] at hsettled
      | node x' q' k' y' =>
        obtain ⟨s', hs', hsettled⟩ := deleteDouble_spec hplace rfl rfl hsound hfuel
        refine ⟨s', hs', ?_⟩
        rwa [List.append_assoc] at hsettled
  obtain ⟨s', hs', hsettled⟩ := hdelete
  exact ⟨s', _, _, hs', toList_plug_node, hsettled⟩

end Shell

end SlipBoard
