import SlipBoard.Common.BalancedTree
import Mathlib.Logic.Function.Basic
import Mathlib.Data.Int.Notation
/-!
# Shell — the command tree

`TelNet/avltree.c`, and `shell_search_cmd` and `shell_insert_cmd` of
`TelNet/shell.c`. The memory is a function of the address; a pointer is
`none` where it is `NULL`, and following that one gives no result. The
word `avl_parent` packs a pointer and a scale, which nodes on addresses
that are multiples of four keep apart: here they are two fields. Of the
four values of the scale the code never sets `3`.

Each function of the source that has a mirror image is one function here,
with the side its name begins with or lifts. The loops and the recursion
have fuel.
-/

namespace SlipBoard

namespace Shell

open SlipBoard.Balanced

/-- The address of a node. -/
abbrev Ptr := ℕ

/-- `struct avl_node`. -/
structure AvlNode where
  parent : Option Ptr
  scale : Scale
  left : Option Ptr
  right : Option Ptr
  deriving DecidableEq

namespace AvlNode

/-- `avl_left`, or `avl_right`. -/
def child (n : AvlNode) : Side → Option Ptr
  | .left => n.left
  | .right => n.right

/-- The node with another child on a side. -/
def withChild (n : AvlNode) (d : Side) (q : Option Ptr) : AvlNode :=
  match d with
  | .left => { n with left := q }
  | .right => { n with right := q }

end AvlNode

/-- The nodes, and `struct avl_root`. -/
structure Avl where
  node : Ptr → AvlNode
  root : Option Ptr

/-- What an `avl_link` points at: the root, or a child of a node. -/
inductive Link
  | root
  | child (p : Ptr) (d : Side)

namespace Avl

variable (s : Avl)

/-! ## Memory -/

/-- A node is changed. -/
def upd (p : Ptr) (f : AvlNode → AvlNode) : Avl :=
  { s with node := Function.update s.node p (f (s.node p)) }

/-- `p->avl_left = q`, or `p->avl_right = q`. -/
def setChild (p : Ptr) (d : Side) (q : Option Ptr) : Avl := s.upd p fun n => n.withChild d q

/-- `avl_set_parent (p, q)`. -/
def setParent (p : Ptr) (q : Option Ptr) : Avl := s.upd p fun n => { n with parent := q }

/-- `if (p) avl_set_parent (p, q)`. -/
def setParentIf (p : Option Ptr) (q : Option Ptr) : Avl :=
  match p with
  | none => s
  | some p => s.setParent p q

/-- `avl_set_balanced`, `avl_set_tilt_right`, `avl_set_tilt_left`. -/
def setScale (p : Ptr) (x : Scale) : Avl := s.upd p fun n => { n with scale := x }

/-- `p->avl_parent = from->avl_parent`. -/
def copyParent (p source : Ptr) : Avl :=
  s.upd p fun n => { n with parent := (s.node source).parent, scale := (s.node source).scale }

/-- `*link`. -/
def load : Link → Option Ptr
  | .root => s.root
  | .child p d => (s.node p).child d

/-- `*link = q`. -/
def store (link : Link) (q : Option Ptr) : Avl :=
  match link with
  | .root => { s with root := q }
  | .child p d => s.setChild p d q

/-- In the parent of `p`, or else at the root, the link to `p` is stored
over. The side asked is `d`; it is across where it is not that. -/
def relink (parent : Option Ptr) (p : Ptr) (d : Side) (q : Option Ptr) : Avl :=
  match parent with
  | some g => if (s.node g).child d = some p then s.setChild g d q else s.setChild g d.other q
  | none => { s with root := q }

/-! ## Rotations -/

/-- The rotation at `p` that lifts its child on the side `d`. -/
def rotate (d : Side) (p : Ptr) : Option Avl := do
  let c ← (s.node p).child d
  let parent := (s.node p).parent
  let inner := (s.node c).child d.other
  let s := (s.setChild p d inner).setParentIf inner (some p)
  let s := (s.setChild c d.other (some p)).setParent c parent
  let s := s.relink parent p d.other (some c)
  return s.setParent p (some c)

/-- `__avl_rotate_right`. -/
def avlRotateRight (p : Ptr) : Option Avl := s.rotate .left p

/-- `__avl_rotate_left`. -/
def avlRotateLeft (p : Ptr) : Option Avl := s.rotate .right p

end Avl

/-- The rebalancing of a node that is too high on the side `d`, and its
result: `-1` where the height has gone down. `__avl_balance_right` looks
at the links of the child before it asks whether there is one. -/
def balance (d : Side) : ℕ → Avl → Ptr → Option (Avl × ℤ)
  | 0, _, _ => none
  | fuel + 1, s, p =>
    match (s.node p).child d with
    | none => if d = .left then some (s, 0) else none
    | some c =>
      let outer := (s.node c).child d
      let inner := (s.node c).child d.other
      match (s.node c).scale with
      | .balanced => do
        -- only a deletion comes here
        let i ← inner
        let innerScale := (s.node i).scale
        let s ← s.rotate d.other c
        let s ← s.rotate d p
        let s := (s.setScale c (.tilt d)).setScale i (.tilt d)
        if innerScale = .balanced then return (s.setScale p .balanced, 0)
        else if innerScale = .tilt d then return (s.setScale p (.tilt d.other), 0)
        else do
          let o ← outer
          let outerScale := (s.node o).scale
          let (s, ret) ← balance d fuel (s.setScale p .balanced) c
          if ret < 0 ∨ outerScale ≠ .balanced then return (s.setScale i .balanced, ret)
          else return (s, ret)
      | .tilt e =>
        if e = d then do
          let s ← s.rotate d p
          return ((s.setScale p .balanced).setScale c .balanced, -1)
        else do
          let s ← s.rotate d.other c
          let s ← s.rotate d p
          let i ← inner
          let s := match (s.node i).scale with
            | .balanced => (s.setScale p .balanced).setScale c .balanced
            | .tilt f =>
              if f = d then (s.setScale c .balanced).setScale p (.tilt d.other)
              else (s.setScale p .balanced).setScale c (.tilt d)
          return (s.setScale i .balanced, -1)

namespace Avl

variable (s : Avl)

/-- `__avl_balance_left`. -/
def avlBalanceLeft (fuel : ℕ) (p : Ptr) : Option (Avl × ℤ) := balance .left fuel s p

/-- `__avl_balance_right`. -/
def avlBalanceRight (fuel : ℕ) (p : Ptr) : Option (Avl × ℤ) := balance .right fuel s p

/-- What is done at `p` where its side `d` has grown, or the side across
has shrunk. -/
def trackBack (d : Side) (fuel : ℕ) (p : Ptr) : Option (Avl × ℤ) :=
  match (s.node p).scale with
  | .balanced => some (s.setScale p (.tilt d), 0)
  | .tilt e => if e = d then balance d fuel s p else some (s.setScale p .balanced, -1)

/-- `__left_hand_insert_track_back`. -/
def leftHandInsertTrackBack (fuel : ℕ) (p : Ptr) : Option (Avl × ℤ) := s.trackBack .left fuel p

/-- `__right_hand_insert_track_back`. -/
def rightHandInsertTrackBack (fuel : ℕ) (p : Ptr) : Option (Avl × ℤ) := s.trackBack .right fuel p

/-- `__left_hand_delete_track_back`. -/
def leftHandDeleteTrackBack (fuel : ℕ) (p : Ptr) : Option (Avl × ℤ) :=
  s.rightHandInsertTrackBack fuel p

/-- `__right_hand_delete_track_back`. -/
def rightHandDeleteTrackBack (fuel : ℕ) (p : Ptr) : Option (Avl × ℤ) :=
  s.leftHandInsertTrackBack fuel p

/-- The call in the loop of `avl_insert`, by `backtrack_path`. -/
def insertTrackBack (path : Side) (fuel : ℕ) (p : Ptr) : Option (Avl × ℤ) :=
  if path = .right then s.rightHandInsertTrackBack fuel p else s.leftHandInsertTrackBack fuel p

/-- The call in the loop of `avl_delete`. -/
def deleteTrackBack (path : Side) (fuel : ℕ) (p : Ptr) : Option (Avl × ℤ) :=
  if path = .right then s.rightHandDeleteTrackBack fuel p else s.leftHandDeleteTrackBack fuel p

/-- `parent_gparent_path`. It is not looked at where there is no
grandparent. -/
def pathTo (gparent : Option Ptr) (p : Ptr) : Side :=
  match gparent with
  | some g => if (s.node g).right = some p then .right else .left
  | none => .left

end Avl

/-! ## Insertion -/

/-- The loop of `avl_insert`. -/
def insertTrack (fuel : ℕ) : ℕ → Avl → ℤ → Option Ptr → Side → Option Avl
  | 0, _, _, _, _ => none
  | _ + 1, s, _, none, _ => some s
  | rounds + 1, s, taller, some p, path =>
    if taller = 0 then some s
    else do
      let gparent := (s.node p).parent
      let gpath := s.pathTo gparent p
      let (s, ret) ← s.insertTrackBack path fuel p
      insertTrack fuel rounds s (taller + ret) gparent gpath

/-- `avl_insert`. -/
def avlInsert (fuel : ℕ) (s : Avl) (insertnode : Ptr) (parent : Option Ptr) (link : Link) :
    Option Avl :=
  let s := s.upd insertnode fun _ => ⟨parent, .balanced, none, none⟩
  let s := s.store link (some insertnode)
  if s.root = some insertnode then some s
  else do
    let p ← parent
    if (s.node p).scale ≠ .balanced then return s.setScale p .balanced
    else
      let path := if (s.node p).left = some insertnode then .left else .right
      insertTrack fuel fuel s 1 (some p) path

/-! ## Deletion -/

/-- The loop of `avl_delete`. -/
def deleteTrack (fuel : ℕ) : ℕ → Avl → ℤ → Option Ptr → Side → Option Avl
  | 0, _, _, _, _ => none
  | _ + 1, s, _, none, _ => some s
  | rounds + 1, s, lower, some p, path =>
    if lower = 0 then some s
    else do
      let gparent := (s.node p).parent
      let gpath := s.pathTo gparent p
      let (s, ret) ← s.deleteTrackBack path fuel p
      deleteTrack fuel rounds s ret gparent gpath

/-- `while ((left = node->avl_left) != NULL) node = left`. -/
def leftmost (s : Avl) : ℕ → Ptr → Option Ptr
  | 0, _ => none
  | fuel + 1, p =>
    match (s.node p).left with
    | none => some p
    | some l => leftmost s fuel l

/-- `avl_delete` of a node with one child or none. -/
def deleteSingle (fuel : ℕ) (s : Avl) (node : Ptr) (child : Option Ptr) : Option Avl :=
  let parent := (s.node node).parent
  let s := s.setParentIf child parent
  let t := s.relink parent node .left child
  match parent, child with
  | some p, _ =>
    let path := if (s.node p).left = some node then .left else .right
    deleteTrack fuel fuel t 1 (some p) path
  | none, some c => some (t.setScale c .balanced)
  | none, none => some t

/-- `avl_delete` of a node with two children: the least node on its right
takes its place. -/
def deleteDouble (fuel : ℕ) (s : Avl) (old left right : Ptr) : Option Avl := do
  let node ← leftmost s fuel right
  let s := s.relink (s.node old).parent old .left (some node)
  let child := (s.node node).right
  let parent ← (s.node node).parent
  if parent = old then
    let s := s.copyParent node old
    let s := (s.setChild node .left (some left)).setParent left (some node)
    deleteTrack fuel fuel s 1 (some node) .right
  else
    let s := s.setChild parent .left child
    let s := (s.setChild node .right (some right)).setParent right (some node)
    let s := s.copyParent node old
    let s := (s.setChild node .left (some left)).setParent left (some node)
    let s := s.setParentIf child (some parent)
    deleteTrack fuel fuel s 1 (some parent) .left

/-- `avl_delete`. -/
def avlDelete (fuel : ℕ) (s : Avl) (node : Ptr) : Option Avl :=
  match (s.node node).left, (s.node node).right with
  | none, child => deleteSingle fuel s node child
  | some child, none => deleteSingle fuel s node (some child)
  | some left, some right => deleteDouble fuel s node left right

/-! ## Order -/

/-- `avl_first`, `none` inside for `NULL`. -/
def avlFirst (fuel : ℕ) (s : Avl) : Option (Option Ptr) :=
  match s.root with
  | none => some none
  | some n => (leftmost s fuel n).map some

/-- The climb of `avl_next`. -/
def climb (s : Avl) : ℕ → Ptr → Option (Option Ptr)
  | 0, _ => none
  | fuel + 1, p =>
    match (s.node p).parent with
    | none => some none
    | some g => if (s.node g).right = some p then climb s fuel g else some (some g)

/-- `avl_next`. -/
def avlNext (fuel : ℕ) (s : Avl) (node : Ptr) : Option (Option Ptr) :=
  if (s.node node).parent = some node then some none
  else
    match (s.node node).right with
    | some r => (leftmost s fuel r).map some
    | none => climb s fuel node

/-! ## Commands -/

/-- The loop of `shell_search_cmd`, where `ID` is that of each command. -/
def searchFrom (ID : Ptr → UInt32) (s : Avl) (cmdindex : UInt32) :
    ℕ → Option Ptr → Option (Option Ptr)
  | 0, _ => none
  | _ + 1, none => some none
  | fuel + 1, some p =>
    if cmdindex < ID p then searchFrom ID s cmdindex fuel (s.node p).left
    else if cmdindex > ID p then searchFrom ID s cmdindex fuel (s.node p).right
    else some (some p)

/-- `shell_search_cmd`. The `int` it takes is compared as the `uint32_t`
it was. -/
def shellSearchCmd (ID : Ptr → UInt32) (fuel : ℕ) (s : Avl) (cmdindex : UInt32) :
    Option (Option Ptr) :=
  searchFrom ID s cmdindex fuel s.root

/-- The loop of `shell_insert_cmd`, and what it returns. -/
def insertFrom (ID : Ptr → UInt32) (fuel : ℕ) (s : Avl) (newcmd : Ptr) :
    ℕ → Option Ptr → Link → Option (Avl × ℕ)
  | 0, _, _ => none
  | rounds + 1, parent, tmp =>
    match s.load tmp with
    | some this =>
      if ID newcmd < ID this then insertFrom ID fuel s newcmd rounds (some this) (.child this .left)
      else if ID newcmd > ID this then
        insertFrom ID fuel s newcmd rounds (some this) (.child this .right)
      else some (s, 1)
    | none => do
      let s ← avlInsert fuel s newcmd parent tmp
      return (s, 0)

/-- `shell_insert_cmd`. -/
def shellInsertCmd (ID : Ptr → UInt32) (fuel : ℕ) (s : Avl) (newcmd : Ptr) : Option (Avl × ℕ) :=
  insertFrom ID fuel s newcmd fuel none .root

end Shell

end SlipBoard
