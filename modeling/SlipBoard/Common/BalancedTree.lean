import Mathlib.Data.List.Basic
import Mathlib.Data.List.Perm.Basic
import Mathlib.Order.MinMax
/-!
# Height-balanced trees

Binary trees with a scale at each node that tells which subtree is the
higher (`Sound`: truly, and by one at most), and trees with a hole: the
frames from the hole up to the root (`plug`). The two sides of a node are
treated alike: `join d t a s u` is the node with `t` on the side `d`.

A tree is read in order (`toList`), and a hole has what stands before it
and after it (`toList_plug`). Whether a tree in a hole makes the whole
sound depends on its height alone (`sound_plug`).
-/

namespace SlipBoard

namespace Balanced

/-- A side of a node. What is said of both sides is said once, of `d`, and
`d.other` is the one across. -/
inductive Side
  | left
  | right
  deriving DecidableEq

/-- The side across. -/
def Side.other : Side → Side
  | .left => .right
  | .right => .left

@[simp] theorem Side.other_other (d : Side) : d.other.other = d := by cases d <;> rfl

@[simp] theorem Side.other_ne (d : Side) : d.other ≠ d := by cases d <;> decide

theorem Side.eq_other_of_ne {d e : Side} (h : e ≠ d) : e = d.other := by
  cases d <;> cases e <;> first | rfl | exact absurd rfl h

/-- The scale of a node: which subtree is the higher, or that they are of
one height. -/
inductive Scale
  | balanced
  | tilt (d : Side)
  deriving DecidableEq

/-- A binary tree with an element and a scale at each node. That the scales
tell the truth is `Sound`, and no part of the type. -/
inductive ScaleTree (α : Type*)
  | nil
  | node (l : ScaleTree α) (a : α) (s : Scale) (r : ScaleTree α)

variable {α : Type*}

namespace ScaleTree

/-- The node with `t` on the side `d` and `u` across, so that an argument
about one side is the argument about the other. -/
def join (d : Side) (t : ScaleTree α) (a : α) (s : Scale) (u : ScaleTree α) : ScaleTree α :=
  match d with
  | .left => .node t a s u
  | .right => .node u a s t

/-- The element at the root. -/
def root : ScaleTree α → Option α
  | nil => none
  | node _ a _ _ => some a

/-- The scale at the root. -/
def scale : ScaleTree α → Scale
  | nil => .balanced
  | node _ _ s _ => s

def height : ScaleTree α → ℕ
  | nil => 0
  | node l _ _ r => max l.height r.height + 1

/-- The elements in order: those of the left subtree, the root's, and those
of the right. -/
def toList : ScaleTree α → List α
  | nil => []
  | node l a _ r => l.toList ++ a :: r.toList

variable {d e : Side} {t u x y z : ScaleTree α} {a b : α} {s s' : Scale}

@[simp] theorem root_join : (join d t a s u).root = some a := by cases d <;> rfl

@[simp] theorem scale_join : (join d t a s u).scale = s := by cases d <;> rfl

@[simp] theorem height_join : (join d t a s u).height = max t.height u.height + 1 := by
  cases d
  · rfl
  · exact congrArg (· + 1) (max_comm _ _)

theorem join_other : join d.other t a s u = join d u a s t := by cases d <;> rfl

theorem toList_join_congr (ht : x.toList = t.toList) (hu : y.toList = u.toList) :
    (join d x a s y).toList = (join d t a s' u).toList := by
  cases d <;> simp [join, toList, ht, hu]

/-- **A rotation keeps the order**: the two trees hold the same elements,
whatever the balance their nodes tell. -/
theorem toList_rotate {s₁ s₂ s₃ s₄ : Scale} :
    (join d x a s₁ (join d y b s₂ z)).toList = (join d (join d x a s₃ y) b s₄ z).toList := by
  cases d <;> simp [join, toList]

theorem toList_rotate_twice {c : α} {s₁ s₂ s₃ s₄ s₅ s₆ : Scale} :
    (join d (join d x a s₁ y) b s₂ (join d z c s₃ u)).toList =
      (join d (join d x a s₄ (join d y b s₅ z)) c s₆ u).toList := by
  cases d <;> simp [join, toList]

theorem perm_toList_join :
    ((join d t a s u).toList).Perm (a :: (t.toList ++ u.toList)) := by
  cases d
  · exact List.perm_middle
  · exact List.perm_middle.trans (List.Perm.cons a List.perm_append_comm)

theorem root_mem {t : ScaleTree α} (h : t.root = some a) : a ∈ t.toList := by
  cases t with
  | nil => cases h
  | node l b s r =>
    cases h
    simp [toList]

/-- A tree with a height is a node, and may be seen from either side. -/
theorem exists_join (d : Side) (h : 0 < t.height) : ∃ x a s y, t = join d x a s y := by
  cases t with
  | nil => exact absurd h (lt_irrefl 0)
  | node l a s r =>
    cases d
    · exact ⟨l, a, s, r, rfl⟩
    · exact ⟨r, a, s, l, rfl⟩

theorem height_le_length : t.height ≤ t.toList.length := by
  induction t with
  | nil => exact le_refl 0
  | node l a s r ihl ihr =>
    simp only [height, toList, List.length_append, List.length_cons]
    omega

end ScaleTree

open ScaleTree

/-! ## Balance -/

/-- What the scale of a node says of a subtree of height `m` on the side
`d` and one of height `n` across. -/
def Leans (d : Side) : Scale → ℕ → ℕ → Prop
  | .balanced, m, n => m = n
  | .tilt e, m, n => if e = d then m = n + 1 else n = m + 1

@[simp] theorem leans_balanced {d : Side} {m n : ℕ} : Leans d .balanced m n ↔ m = n := Iff.rfl

@[simp] theorem leans_tilt {d : Side} {m n : ℕ} : Leans d (.tilt d) m n ↔ m = n + 1 := by
  simp [Leans]

@[simp] theorem leans_tilt_other {d : Side} {m n : ℕ} :
    Leans d (.tilt d.other) m n ↔ n = m + 1 := by
  simp [Leans]

theorem Scale.cases (d : Side) (s : Scale) :
    s = .balanced ∨ s = .tilt d ∨ s = .tilt d.other := by
  cases s with
  | balanced => exact .inl rfl
  | tilt e =>
    by_cases he : e = d
    · exact .inr (.inl (congrArg _ he))
    · exact .inr (.inr (congrArg _ (Side.eq_other_of_ne he)))

theorem Leans.swap {d : Side} {s : Scale} {m n : ℕ} (h : Leans d s m n) : Leans d.other s n m := by
  rcases Scale.cases d s with rfl | rfl | rfl
  · exact h.symm
  · rw [leans_tilt] at h
    rw [Leans, if_neg (Side.other_ne d).symm]
    exact h
  · rw [leans_tilt_other] at h
    exact leans_tilt.2 h

theorem Leans.succ {d : Side} {s : Scale} {m n : ℕ} (h : Leans d s m n) :
    Leans d s (m + 1) (n + 1) := by
  rcases Scale.cases d s with rfl | rfl | rfl
  · exact congrArg (· + 1) h
  · exact leans_tilt.2 (congrArg (· + 1) (leans_tilt.1 h))
  · exact leans_tilt_other.2 (congrArg (· + 1) (leans_tilt_other.1 h))

/-- Every scale is the difference of the heights, which is one at most. -/
def Sound : ScaleTree α → Prop
  | nil => True
  | node l _ s r => Sound l ∧ Sound r ∧ Leans .left s l.height r.height

variable {d : Side} {t u : ScaleTree α} {a : α} {s : Scale}

@[simp] theorem sound_join :
    Sound (join d t a s u) ↔ Sound t ∧ Sound u ∧ Leans d s t.height u.height := by
  cases d with
  | left => exact Iff.rfl
  | right =>
    refine and_left_comm.trans (and_congr_right fun _ => and_congr_right fun _ => ?_)
    match s with
    | .balanced => exact eq_comm
    | .tilt .left => exact Iff.rfl
    | .tilt .right => exact Iff.rfl

/-! ## Holes -/

/-- A node above a hole: the side of the hole, and the subtree across. -/
structure Frame (α : Type*) where
  side : Side
  elem : α
  scale : Scale
  sibling : ScaleTree α

/-- The frame with a tree in its hole, which is the subtree one level up. -/
def Frame.attach (f : Frame α) (t : ScaleTree α) : ScaleTree α := join f.side t f.elem f.scale f.sibling

/-- The whole tree, with `t` in the hole. The frames go upwards, the parent
of the hole first and the root last. -/
def plug : List (Frame α) → ScaleTree α → ScaleTree α
  | [], t => t
  | f :: fs, t => plug fs (f.attach t)

/-- The elements that stand before a hole in order: a frame whose hole is on
the right has its element and its other subtree there. -/
def before : List (Frame α) → List α
  | [] => []
  | ⟨.left, _, _, _⟩ :: fs => before fs
  | ⟨.right, a, _, u⟩ :: fs => before fs ++ (u.toList ++ [a])

/-- The elements that stand after a hole in order, from the frames whose
hole is on the left. -/
def after : List (Frame α) → List α
  | [] => []
  | ⟨.left, a, _, u⟩ :: fs => a :: u.toList ++ after fs
  | ⟨.right, _, _, _⟩ :: fs => after fs

/-- **The whole tree in order**: what stands before the hole, the tree that
is put into it, and what stands behind. -/
theorem toList_plug (fs : List (Frame α)) (t : ScaleTree α) :
    (plug fs t).toList = before fs ++ t.toList ++ after fs := by
  induction fs generalizing t with
  | nil => simp [plug, before, after]
  | cons f fs ih =>
    obtain ⟨d, a, s, u⟩ := f
    rw [plug, ih]
    cases d <;> simp [Frame.attach, join, toList, before, after]

/-- A node in it. -/
theorem toList_plug_node {fs : List (Frame α)} {l r : ScaleTree α} {a : α} {s : Scale} :
    (plug fs (node l a s r)).toList = (before fs ++ l.toList) ++ a :: (r.toList ++ after fs) := by
  rw [toList_plug, toList]
  simp only [List.append_assoc, List.cons_append]

/-- The elements of the frames, in no order that matters: they stay when
what is in the hole changes. -/
def elems (fs : List (Frame α)) : List α := fs.flatMap fun f => f.elem :: f.sibling.toList

theorem perm_plug (fs : List (Frame α)) (t : ScaleTree α) :
    ((plug fs t).toList).Perm (t.toList ++ elems fs) := by
  induction fs generalizing t with
  | nil => simp [plug, elems]
  | cons f fs ih =>
    refine (ih (f.attach t)).trans ((perm_toList_join.append_right _).trans ?_)
    simp only [elems, List.flatMap_cons, List.cons_append, List.append_assoc]
    exact List.perm_middle.symm

theorem length_le_elems (fs : List (Frame α)) : fs.length ≤ (elems fs).length := by
  induction fs with
  | nil => exact le_refl 0
  | cons f fs ih =>
    simp only [elems, List.flatMap_cons, List.length_cons, List.length_append] at ih ⊢
    omega

theorem plug_append (fs gs : List (Frame α)) (t : ScaleTree α) :
    plug (fs ++ gs) t = plug gs (plug fs t) := by
  induction fs generalizing t with
  | nil => rfl
  | cons f fs ih => exact ih _

theorem root_plug {f : Frame α} {fs : List (Frame α)} {t u : ScaleTree α} :
    (plug (f :: fs) t).root = (plug (f :: fs) u).root := by
  induction fs generalizing f t u with
  | nil => rw [plug, plug, plug, plug, Frame.attach, Frame.attach, root_join, root_join]
  | cons g fs ih => exact ih

theorem root_plug_mem {f : Frame α} {fs : List (Frame α)} {t : ScaleTree α} {a : α}
    (h : (plug (f :: fs) t).root = some a) : a ∈ elems (f :: fs) := by
  induction fs generalizing f t with
  | nil =>
    rw [plug, plug, Frame.attach, root_join] at h
    cases h
    exact List.mem_cons_self
  | cons g fs ih =>
    refine List.mem_cons_of_mem f.elem (List.mem_append_right _ (ih (t := f.attach t) h))

theorem before_append (fs gs : List (Frame α)) : before (fs ++ gs) = before gs ++ before fs := by
  induction fs with
  | nil => simp [before]
  | cons f fs ih =>
    obtain ⟨d, a, s, u⟩ := f
    cases d <;> simp [before, ih]

theorem after_append (fs gs : List (Frame α)) : after (fs ++ gs) = after fs ++ after gs := by
  induction fs with
  | nil => simp [after]
  | cons f fs ih =>
    obtain ⟨d, a, s, u⟩ := f
    cases d <;> simp [after, ih]

theorem before_eq_nil {fs : List (Frame α)} (h : ∀ f ∈ fs, f.side = .left) : before fs = [] := by
  induction fs with
  | nil => rfl
  | cons f fs ih =>
    obtain ⟨d, a, s, u⟩ := f
    obtain rfl : d = .left := h _ List.mem_cons_self
    exact ih fun g hg => h g (List.mem_cons_of_mem _ hg)

/-- A tree of height `h` in the hole makes the whole sound. -/
def Fits : List (Frame α) → ℕ → Prop
  | [], _ => True
  | f :: fs, h => Sound f.sibling ∧ Leans f.side f.scale h f.sibling.height ∧
      Fits fs (max h f.sibling.height + 1)

/-- **Soundness of the whole** is soundness of the part in the hole, and a
height that the path above it is made for. So a change below need only keep
the height. -/
theorem sound_plug (fs : List (Frame α)) (t : ScaleTree α) :
    Sound (plug fs t) ↔ Sound t ∧ Fits fs t.height := by
  induction fs generalizing t with
  | nil => exact (and_iff_left trivial).symm
  | cons f fs ih =>
    rw [plug, ih, Frame.attach, sound_join, height_join, Fits]
    tauto

/-- What fits does not depend on the elements of the frames, but only on
their sides, scales and heights. -/
theorem fits_elem {d : Side} {a b : α} {s : Scale} {u : ScaleTree α} {gs : List (Frame α)} :
    ∀ {fs : List (Frame α)} {h : ℕ}, Fits (fs ++ ⟨d, a, s, u⟩ :: gs) h →
      Fits (fs ++ ⟨d, b, s, u⟩ :: gs) h := by
  intro fs
  induction fs with
  | nil => exact id
  | cons f fs ih => exact fun hfits => ⟨hfits.1, hfits.2.1, ih hfits.2.2⟩

/-- Every element of a tree is at a place of its own. -/
theorem exists_plug {t : ScaleTree α} (h : a ∈ t.toList) :
    ∃ fs l s r, t = plug fs (node l a s r) := by
  induction t with
  | nil => cases h
  | node l b s r ihl ihr =>
    simp only [toList, List.mem_append, List.mem_cons] at h
    rcases h with h | rfl | h
    · obtain ⟨fs, l', s', r', rfl⟩ := ihl h
      exact ⟨fs ++ [⟨.left, b, s, r⟩], l', s', r', (plug_append _ _ _).symm ▸ rfl⟩
    · exact ⟨[], l, s, r, rfl⟩
    · obtain ⟨fs, l', s', r', rfl⟩ := ihr h
      exact ⟨fs ++ [⟨.right, b, s, l⟩], l', s', r', (plug_append _ _ _).symm ▸ rfl⟩

end Balanced

end SlipBoard
