import SlipBoard.Shell.Linked
/-!
# Shell — rebalancing

`balance` makes a tree sound again whose one side is too high by two
(`balance_spec`), and its result tells whether the height has gone down.
The recursion is for the case that only a deletion meets: a child that is
balanced, with the grandchild in between leaning away from it.

The two loops climb from a subtree whose height has changed to the root.
`avl_insert` stops where the height is what it was (`insertTrack_spec`),
and so does `avl_delete` (`deleteTrack_spec`), with the opposite reading
of the results.
-/

namespace SlipBoard

namespace Shell

open SlipBoard.Balanced ScaleTree

variable {s s' : Avl} {d : Side} {p : Ptr} {t u x y z : ScaleTree Ptr}
variable {fs : List (Frame Ptr)} {sc : Scale}

/-- What a function leaves of a tree of the height `h` with the nodes `l`
in order: a sound tree, which is lower by one where the result is `-1`. -/
structure Rebalanced (fs : List (Frame Ptr)) (l : List Ptr) (h : ℕ) (s : Avl) (ret : ℤ)
    (t : ScaleTree Ptr) : Prop where
  holds : Holds s fs t
  sound : Sound t
  toList : t.toList = l
  height : ret = -1 ∧ t.height + 1 = h ∨ ret = 0 ∧ t.height = h

/-- The height of the part in the hole has gone down by one, and the code
says so by returning -1. -/
theorem exists_lowered {l : List Ptr} {h : ℕ} {P : Prop} (hholds : Holds s fs t) (hsound : Sound t)
    (hlist : t.toList = l) (hheight : t.height + 1 = h) :
    ∃ s' ret t', some (s, (-1 : ℤ)) = some (s', ret) ∧ Rebalanced fs l h s' ret t' ∧
      (ret = 0 → P) := by
  refine ⟨s, -1, t, rfl, ⟨hholds, hsound, hlist, .inl ⟨rfl, hheight⟩⟩, fun hret => ?_⟩
  cases hret

/-- The height has stayed, which takes what `P` says, and the code returns
0. -/
theorem exists_stayed {l : List Ptr} {h : ℕ} {P : Prop} (hholds : Holds s fs t) (hsound : Sound t)
    (hlist : t.toList = l) (hheight : t.height = h) (hP : P) :
    ∃ s' ret t', some (s, (0 : ℤ)) = some (s', ret) ∧ Rebalanced fs l h s' ret t' ∧
      (ret = 0 → P) :=
  ⟨s, 0, t, rfl, ⟨hholds, hsound, hlist, .inr ⟨rfl, hheight⟩⟩, fun _ => hP⟩

/-- The child leans the same way as the node: one rotation brings them in
balance. -/
theorem balance_same {c : Ptr} {fuel : ℕ} {P : Prop}
    (h : Holds s fs (join d (join d x c (.tilt d) y) p sc u)) (hx : Sound x) (hy : Sound y)
    (hu : Sound u) (hleans : x.height = y.height + 1) (hheight : x.height = u.height + 1) :
    ∃ s' ret t', balance d (fuel + 1) s p = some (s', ret) ∧
      Rebalanced fs (join d (join d x c (.tilt d) y) p sc u).toList
        ((join d x c (.tilt d) y).height + 1) s' ret t' ∧ (ret = 0 → P) := by
  have hbelow : Holds s (⟨d, p, sc, u⟩ :: fs) (join d x c (.tilt d) y) := holds_cons.2 h
  obtain ⟨s₁, hs₁, h₁⟩ := holds_rotate h
  rw [balance, h.node, cell_child, root_join]
  simp only [hbelow.node, cell_scale, if_pos, hs₁, Option.bind_eq_bind, Option.bind_some]
  refine exists_lowered ((h₁.setScale_far .balanced).setScale .balanced) ?_ toList_rotate ?_
  · simp only [sound_join, height_join, leans_balanced]
    exact ⟨hx, ⟨hy, hu, by omega⟩, by omega⟩
  · simp only [height_join]
    omega

/-- It leans the other way: two rotations, and the scales told by that of
the grandchild in between. -/
theorem balance_across {c : Ptr} {fuel : ℕ} {P : Prop}
    (h : Holds s fs (join d (join d x c (.tilt d.other) y) p sc u)) (hx : Sound x) (hy : Sound y)
    (hu : Sound u) (hleans : y.height = x.height + 1) (hheight : y.height = u.height + 1) :
    ∃ s' ret t', balance d (fuel + 1) s p = some (s', ret) ∧
      Rebalanced fs (join d (join d x c (.tilt d.other) y) p sc u).toList
        ((join d x c (.tilt d.other) y).height + 1) s' ret t' ∧ (ret = 0 → P) := by
  have hbelow : Holds s (⟨d, p, sc, u⟩ :: fs) (join d x c (.tilt d.other) y) := holds_cons.2 h
  obtain ⟨v, i, si, z, rfl⟩ := exists_join d (show 0 < y.height by omega)
  obtain ⟨hv, hz, hleans'⟩ := sound_join.1 hy
  rw [height_join] at hleans hheight
  obtain ⟨s₁, s₂, hs₁, hs₂, h₂⟩ := holds_rotate_twice h
  have hi : (s₂.node i).scale = si := by rw [h₂.node, cell_scale]
  rw [balance, h.node, cell_child, root_join]
  simp only [hbelow.node, cell_child_other, cell_scale, if_neg (Side.other_ne d), root_join, hs₁,
    hs₂, hi, Option.bind_eq_bind, Option.bind_some]
  rcases Scale.cases d si with rfl | rfl | rfl
  · rw [leans_balanced] at hleans'
    have h₃ := (h₂.setScale_far .balanced).setScale_near .balanced
    refine exists_lowered (h₃.setScale .balanced) ?_ toList_rotate_twice ?_
    · simp only [sound_join, height_join, leans_balanced]
      exact ⟨⟨hx, hv, by omega⟩, ⟨hz, hu, by omega⟩, by omega⟩
    · simp only [height_join]
      omega
  · rw [leans_tilt] at hleans'
    have h₃ := (h₂.setScale_near .balanced).setScale_far (.tilt d.other)
    simp only [if_pos]
    refine exists_lowered (h₃.setScale .balanced) ?_ toList_rotate_twice ?_
    · simp only [sound_join, height_join, leans_balanced, leans_tilt_other]
      exact ⟨⟨hx, hv, by omega⟩, ⟨hz, hu, by omega⟩, by omega⟩
    · simp only [height_join]
      omega
  · rw [leans_tilt_other] at hleans'
    have h₃ := (h₂.setScale_far .balanced).setScale_near (.tilt d)
    simp only [if_neg (Side.other_ne d)]
    refine exists_lowered (h₃.setScale .balanced) ?_ toList_rotate_twice ?_
    · simp only [sound_join, height_join, leans_balanced, leans_tilt]
      exact ⟨⟨hx, hv, by omega⟩, ⟨hz, hu, by omega⟩, by omega⟩
    · simp only [height_join]
      omega

/-- **A node too high on one side** is rebalanced. The height stays only
where the child on that side was balanced. -/
theorem balance_spec : ∀ (fuel : ℕ) (s : Avl) (fs : List (Frame Ptr)) (t : ScaleTree Ptr) (p : Ptr)
    (sc : Scale) (u : ScaleTree Ptr), Holds s fs (join d t p sc u) → Sound t → Sound u →
    t.height = u.height + 2 → t.height ≤ fuel →
    ∃ s' ret t', balance d fuel s p = some (s', ret) ∧
      Rebalanced fs (join d t p sc u).toList (t.height + 1) s' ret t' ∧
      (ret = 0 → t.scale = .balanced) := by
  intro fuel
  induction fuel with
  | zero =>
    intro s fs t p sc u _ _ _ hheight hfuel
    omega
  | succ fuel ih =>
    intro s fs t p sc u h ht hu hheight hfuel
    obtain ⟨x, c, k, y, rfl⟩ := exists_join d (show 0 < t.height by omega)
    obtain ⟨hx, hy, hleans⟩ := sound_join.1 ht
    rw [height_join] at hheight hfuel
    have hbelow : Holds s (⟨d, p, sc, u⟩ :: fs) (join d x c k y) := holds_cons.2 h
    rcases Scale.cases d k with rfl | rfl | rfl
    · -- the child is balanced
      rw [leans_balanced] at hleans
      rw [balance, h.node, cell_child, root_join]
      simp only [hbelow.node, cell_child, cell_child_other, cell_scale]
      obtain ⟨v, i, si, z, rfl⟩ := exists_join d (show 0 < y.height by omega)
      obtain ⟨hv, hz, hleans'⟩ := sound_join.1 hy
      rw [height_join] at hleans hheight hfuel
      have hi : (s.node i).scale = si := by
        rw [(rep_join.1 hbelow.here).2.2.scale_eq root_join, scale_join]
      obtain ⟨s₁, s₂, hs₁, hs₂, h₂⟩ := holds_rotate_twice h
      have h₃ := (h₂.setScale_near (.tilt d)).setScale (.tilt d)
      simp only [root_join, hs₁, hs₂, hi, Option.bind_eq_bind, Option.bind_some]
      rcases Scale.cases d si with rfl | rfl | rfl
      · rw [leans_balanced] at hleans'
        rw [if_pos rfl]
        refine exists_stayed (h₃.setScale_far .balanced) ?_ toList_rotate_twice ?_ scale_join
        · simp only [sound_join, height_join, leans_balanced, leans_tilt]
          exact ⟨⟨hx, hv, by omega⟩, ⟨hz, hu, by omega⟩, by omega⟩
        · simp only [height_join]
          omega
      · rw [leans_tilt] at hleans'
        rw [if_neg (by simp), if_pos rfl]
        refine exists_stayed (h₃.setScale_far (.tilt d.other)) ?_ toList_rotate_twice ?_ scale_join
        · simp only [sound_join, height_join, leans_tilt, leans_tilt_other]
          exact ⟨⟨hx, hv, by omega⟩, ⟨hz, hu, by omega⟩, by omega⟩
        · simp only [height_join]
          omega
      · -- and its child in between leans away: the child is too high in its turn
        rw [leans_tilt_other] at hleans'
        rw [if_neg (by simp), if_neg (by simp [Side.other_ne])]
        obtain ⟨x₁, o, ko, x₂, hxo⟩ := exists_join d (show 0 < x.height by omega)
        have hroot : x.root = some o := by rw [hxo, root_join]
        have hnear : Holds ((s₂.setScale c (.tilt d)).setScale i (.tilt d))
            (⟨d, i, .tilt d, join d z p sc u⟩ :: fs) (join d x c (.tilt d) v) := holds_cons.2 h₃
        have ho := (rep_join.1 hnear.here).2.1.scale_eq hroot
        have h₄ := h₃.setScale_far .balanced
        obtain ⟨s₅, ret, t', hs₅, h₅, hstay⟩ := ih _ (⟨d, i, .tilt d, join d z p .balanced u⟩ :: fs)
          x c (.tilt d) v (holds_cons.2 h₄) hx hv (by omega) (by omega)
        have hlist : ∀ k, (join d t' i k (join d z p .balanced u)).toList =
            (join d (join d x c .balanced (join d v i (.tilt d.other) z)) p sc u).toList := by
          intro k
          calc (join d t' i k (join d z p .balanced u)).toList
              = (join d (join d x c (.tilt d) v) i k (join d z p .balanced u)).toList :=
                toList_join_congr h₅.toList rfl
            _ = _ := toList_rotate_twice
        simp only [hroot, ho, hs₅, Option.bind_some]
        rcases h₅.height with ⟨rfl, hlow⟩ | ⟨rfl, hsame⟩
        · rw [if_pos (.inl (by decide))]
          refine exists_lowered ((holds_cons.1 h₅.holds).setScale .balanced) ?_ (hlist _) ?_
          · simp only [sound_join, height_join, leans_balanced]
            exact ⟨h₅.sound, ⟨hz, hu, by omega⟩, by omega⟩
          · simp only [height_join]
            omega
        · rw [if_neg (by simp [hstay rfl])]
          refine exists_stayed (holds_cons.1 h₅.holds) ?_ (hlist _) ?_ scale_join
          · simp only [Frame.attach, sound_join, height_join, leans_balanced, leans_tilt]
            exact ⟨h₅.sound, ⟨hz, hu, by omega⟩, by omega⟩
          · simp only [Frame.attach, height_join]
            omega
    · rw [leans_tilt] at hleans
      exact balance_same h hx hy hu hleans (by omega)
    · rw [leans_tilt_other] at hleans
      exact balance_across h hx hy hu hleans (by omega)

/-- **Where the scale would be right for a side across higher by one** it
is put right: that side has shrunk, or the other has grown. -/
theorem trackBack_spec {fuel : ℕ} (h : Holds s fs (join d t p sc u)) (ht : Sound t) (hu : Sound u)
    (hleans : Leans d sc t.height (u.height + 1)) (hfuel : t.height ≤ fuel) :
    ∃ s' ret t', s.trackBack d fuel p = some (s', ret) ∧
      Rebalanced fs (join d t p sc u).toList (max t.height (u.height + 1) + 1) s' ret t' := by
  unfold Avl.trackBack
  rw [h.node, cell_scale]
  rcases Scale.cases d sc with rfl | rfl | rfl
  · rw [leans_balanced] at hleans
    refine ⟨_, _, _, rfl, h.setScale (.tilt d), ?_, toList_join_congr rfl rfl, .inr ⟨rfl, ?_⟩⟩
    · exact sound_join.2 ⟨ht, hu, leans_tilt.2 hleans⟩
    · rw [height_join]
      omega
  · rw [leans_tilt] at hleans
    obtain ⟨s', ret, t', hs', h', -⟩ := balance_spec fuel s fs t p _ u h ht hu hleans hfuel
    refine ⟨s', ret, t', (if_pos rfl).trans hs', ?_⟩
    rwa [max_eq_left (by omega)]
  · rw [leans_tilt_other] at hleans
    refine ⟨_, _, _, if_neg (Side.other_ne d), h.setScale .balanced, ?_,
      toList_join_congr rfl rfl, .inl ⟨rfl, ?_⟩⟩
    · exact sound_join.2 ⟨ht, hu, leans_balanced.2 (by omega)⟩
    · rw [height_join]
      omega

/-! ## Back to the root -/

/-- The path the loops are given is the side of the hole. -/
def PathOf (path : Side) : List (Frame Ptr) → Prop
  | [] => True
  | f :: _ => path = f.side

/-- The side of a hole, told by the link on the right. -/
theorem Holds.pathRight {f : Frame Ptr} (h : Holds s (f :: fs) t) (hroot : t.root = some p) :
    (if (s.node f.elem).right = some p then Side.right else Side.left) = f.side := by
  have hiff := h.child_iff hroot .right
  by_cases hright : (s.node f.elem).right = some p
  · rw [if_pos hright]
    exact hiff.1 hright
  · rw [if_neg hright]
    exact (Side.eq_other_of_ne fun heq => hright (hiff.2 heq.symm)).symm

/-- The same, told by the link on the left. -/
theorem Holds.pathLeft {f : Frame Ptr} (h : Holds s (f :: fs) t) (hroot : t.root = some p) :
    (if (s.node f.elem).left = some p then Side.left else Side.right) = f.side := by
  have hiff := h.child_iff hroot .left
  by_cases hleft : (s.node f.elem).left = some p
  · rw [if_pos hleft]
    exact hiff.1 hleft
  · rw [if_neg hleft]
    exact (Side.eq_other_of_ne fun heq => hleft (hiff.2 heq.symm)).symm

theorem Holds.pathOf {f : Frame Ptr} (h : Holds s fs (f.attach t)) :
    PathOf (s.pathTo (top fs) f.elem) fs := by
  cases fs with
  | nil => trivial
  | cons g fs => exact h.pathRight root_join

theorem insertTrack_zero (fuel rounds : ℕ) (parent : Option Ptr) (path : Side) :
    insertTrack fuel (rounds + 1) s 0 parent path = some s := by
  cases parent <;> rfl

theorem deleteTrack_zero (fuel rounds : ℕ) (parent : Option Ptr) (path : Side) :
    deleteTrack fuel (rounds + 1) s 0 parent path = some s := by
  cases parent <;> rfl

/-- What the loops leave: the whole tree sound, with the same nodes. -/
def Settled (l : List Ptr) (s : Avl) : Prop := ∃ t, Holds s [] t ∧ Sound t ∧ t.toList = l

theorem settled_of_fits (h : Holds s fs t) (ht : Sound t) (hfits : Fits fs t.height) :
    Settled (plug fs t).toList s :=
  ⟨plug fs t, holds_plug.2 h, (sound_plug fs t).2 ⟨ht, hfits⟩, rfl⟩

theorem toList_plug_congr (h : x.toList = y.toList) :
    (plug fs x).toList = (plug fs y).toList := by
  rw [toList_plug, toList_plug, h]

/-- **A subtree has grown by one**: `avl_insert` climbs until the height
is what it was. -/
theorem insertTrack_spec {fuel : ℕ} : ∀ (fs : List (Frame Ptr)) (rounds : ℕ) (s : Avl)
    (t : ScaleTree Ptr) (h : ℕ) (path : Side), Holds s fs t → Sound t → Fits fs h → t.height = h + 1 →
    PathOf path fs → fs.length < rounds → (plug fs t).toList.length ≤ fuel →
    ∃ s', insertTrack fuel rounds s 1 (top fs) path = some s' ∧
      Settled (plug fs t).toList s' := by
  intro fs
  induction fs with
  | nil =>
    intro rounds s t h path hholds ht _ _ _ hrounds _
    obtain ⟨rounds, rfl⟩ : ∃ n, rounds = n + 1 := ⟨rounds - 1, by omega⟩
    exact ⟨s, rfl, t, hholds, ht, rfl⟩
  | cons f fs ih =>
    intro rounds s t h path hholds ht hfits hheight hpath hrounds hfuel
    obtain ⟨rounds, rfl⟩ : ∃ n, rounds = n + 1 := ⟨rounds - 1, by omega⟩
    obtain ⟨hsib, hleans, hfits⟩ := hfits
    have hattach := holds_cons.1 hholds
    have htall : t.height ≤ fuel := by
      have := height_le_length (t := t)
      rw [toList_plug, List.length_append, List.length_append] at hfuel
      omega
    obtain ⟨s₁, ret, t₁, hs₁, h₁⟩ := trackBack_spec hattach ht hsib (hheight ▸ hleans.succ) htall
    have hlist : (plug fs t₁).toList = (plug (f :: fs) t).toList := toList_plug_congr h₁.toList
    have hback : s.insertTrackBack path fuel f.elem = some (s₁, ret) := by
      rw [← hs₁, show path = f.side from hpath]
      cases f.side <;> rfl
    have hloop : insertTrack fuel (rounds + 1) s 1 (top (f :: fs)) path =
        insertTrack fuel rounds s₁ (1 + ret) (top fs) (s.pathTo (top fs) f.elem) := by
      refine (if_neg (show (1 : ℤ) ≠ 0 by decide)).trans ?_
      rw [hback, hattach.node, cell_parent]
      rfl
    rw [hloop]
    rcases h₁.height with ⟨rfl, hlow⟩ | ⟨rfl, hhigh⟩
    · simp only [List.length_cons] at hrounds
      obtain ⟨rounds, rfl⟩ : ∃ n, rounds = n + 1 := ⟨rounds - 1, by omega⟩
      refine ⟨s₁, insertTrack_zero _ _ _ _, ?_⟩
      rw [← hlist]
      refine settled_of_fits h₁.holds h₁.sound ?_
      rwa [show t₁.height = max h f.sibling.height + 1 by omega]
    · rw [← hlist] at hfuel ⊢
      refine ih rounds s₁ t₁ (max h f.sibling.height + 1) _ h₁.holds h₁.sound hfits ?_
        hattach.pathOf (by simpa using hrounds) hfuel
      omega

/-- **A subtree has shrunk by one**: `avl_delete` climbs until the height
is what it was. -/
theorem deleteTrack_spec {fuel : ℕ} : ∀ (fs : List (Frame Ptr)) (rounds : ℕ) (s : Avl)
    (t : ScaleTree Ptr) (lower : ℤ) (path : Side), Holds s fs t → Sound t → Fits fs (t.height + 1) →
    lower ≠ 0 → PathOf path fs → fs.length < rounds → (plug fs t).toList.length ≤ fuel →
    ∃ s', deleteTrack fuel rounds s lower (top fs) path = some s' ∧
      Settled (plug fs t).toList s' := by
  intro fs
  induction fs with
  | nil =>
    intro rounds s t lower path hholds ht _ _ _ hrounds _
    obtain ⟨rounds, rfl⟩ : ∃ n, rounds = n + 1 := ⟨rounds - 1, by omega⟩
    exact ⟨s, rfl, t, hholds, ht, rfl⟩
  | cons f fs ih =>
    intro rounds s t lower path hholds ht hfits hlower hpath hrounds hfuel
    obtain ⟨rounds, rfl⟩ : ∃ n, rounds = n + 1 := ⟨rounds - 1, by omega⟩
    obtain ⟨hsib, hleans, hfits⟩ := hfits
    have hattach := holds_cons.1 hholds
    have htall : f.sibling.height ≤ fuel := by
      have := height_le_length (t := f.sibling)
      have hperm := (perm_plug (f :: fs) t).length_eq
      rw [elems_cons, List.length_append, List.length_cons, List.length_append] at hperm
      omega
    have hother : Holds s fs (join f.side.other f.sibling f.elem f.scale t) := by
      rw [join_other]
      exact hattach
    obtain ⟨s₁, ret, t₁, hs₁, h₁⟩ := trackBack_spec hother hsib ht hleans.swap htall
    have hlist : (plug fs t₁).toList = (plug (f :: fs) t).toList := by
      refine toList_plug_congr (h₁.toList.trans ?_)
      rw [join_other]
      rfl
    have hback : s.deleteTrackBack path fuel f.elem = some (s₁, ret) := by
      rw [← hs₁, show path = f.side from hpath]
      cases f.side <;> rfl
    have hloop : deleteTrack fuel (rounds + 1) s lower (top (f :: fs)) path =
        deleteTrack fuel rounds s₁ ret (top fs) (s.pathTo (top fs) f.elem) := by
      refine (if_neg hlower).trans ?_
      rw [hback, hattach.node, cell_parent]
      rfl
    rw [hloop]
    rcases h₁.height with ⟨rfl, hlow⟩ | ⟨rfl, hhigh⟩
    · rw [← hlist] at hfuel ⊢
      refine ih rounds s₁ t₁ (-1) _ h₁.holds h₁.sound ?_ (by decide) hattach.pathOf
        (by simpa using hrounds) hfuel
      rwa [hlow, max_comm]
    · simp only [List.length_cons] at hrounds
      obtain ⟨rounds, rfl⟩ : ∃ n, rounds = n + 1 := ⟨rounds - 1, by omega⟩
      refine ⟨s₁, deleteTrack_zero _ _ _ _, ?_⟩
      rw [← hlist]
      refine settled_of_fits h₁.holds h₁.sound ?_
      rwa [hhigh, max_comm]

end Shell

end SlipBoard
