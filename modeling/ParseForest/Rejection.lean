import ParseForest.NodeId

/-!
# `ParseForest.Rejection`: why an array is no tree

Packing wants an array whose used slots form one tree under slot 0, and in which
every collecting node has something before it to take in. A `Rejection` names
the first thing found to be amiss. `ParseForest.Validity` says which one that is
when several things are.
-/

set_option autoImplicit false

namespace ParseForest

/-- What is amiss with an array that was to be packed. -/
inductive Rejection
  /-- More slots are said to be used than there are. -/
  | topBeyondArray (top size : Nat)
  /-- The parent of a node is not among the used slots. -/
  | parentOutside (node parent : NodeId)
  /-- Going from parent to parent leads from this node back to it. -/
  | cycle (node : NodeId)
  /-- A node other than the root has no parent. -/
  | stray (node : NodeId)
  /-- A node is to take in the siblings before it, and there are none. -/
  | nothingBefore (node : NodeId)
deriving DecidableEq, Repr

/-- The wording of a rejection. -/
def Rejection.message : Rejection → String
  | topBeyondArray top size =>
    "top " ++ Nat.repr top ++ " exceeds node array length " ++ Nat.repr size
  | parentOutside node parent =>
    "node " ++ node.display ++ " refers to parent " ++ parent.display ++ " outside the used slots"
  | cycle node => "parent chain through node " ++ node.display ++ " forms a cycle"
  | stray node => "node " ++ node.display ++ " has no parent but is not the root"
  | nothingBefore node =>
    "collecting node " ++ node.display ++ " has no preceding sibling"

end ParseForest
