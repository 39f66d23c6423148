import SlipBoard.Shell.Model.AvlTree
/-!
# Shell — the command index

What the shell does with its tree: commands are put in by
`shell_insert_cmd`, nodes are taken out by `avl_delete`, and the loops of
`shell_tab` and of the command list go through all the nodes by
`avl_first` and `avl_next`.
-/

namespace SlipBoard

namespace Shell

/-- `for (node = avl_first (root); node; node = avl_next (node))` from a
node on: the nodes it meets. -/
def walkFrom (fuel : ℕ) (s : Avl) : ℕ → Option Ptr → Option (List Ptr)
  | 0, _ => none
  | _ + 1, none => some []
  | rounds + 1, some node => do
    let next ← avlNext fuel s node
    let nodes ← walkFrom fuel s rounds next
    return node :: nodes

/-- The nodes that loop meets. -/
def walk (fuel : ℕ) (s : Avl) : Option (List Ptr) := do
  let node ← avlFirst fuel s
  walkFrom fuel s fuel node

/-- An operation on the index. -/
inductive IndexOp
  | insert (newcmd : Ptr)
  | delete (node : Ptr)
  deriving DecidableEq

/-- One operation on the tree. -/
def treeStep (ID : Ptr → UInt32) (fuel : ℕ) (s : Avl) : IndexOp → Option Avl
  | .insert newcmd => (shellInsertCmd ID fuel s newcmd).map Prod.fst
  | .delete node => avlDelete fuel s node

end Shell

end SlipBoard
