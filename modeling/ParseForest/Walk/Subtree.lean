import ParseForest.Walk

/-!
# `ParseForest.Walk.Subtree`: everything below a node

A walk that finds a node before the nodes under it, and these before the
siblings behind it. The nodes still to be found, each with all that is under it
and behind it, wait on a stack.

A link that leads out of the array takes its place on the stack like any other.
The pull that meets it finds nothing and drops it, and the pulls after that find
what was below it on the stack.
-/

set_option autoImplicit false

namespace ParseForest

/-- A walk through a subtree, with the nodes to go on from, nearest first. -/
structure SubtreeWalk where
  stack : List NodeId
deriving DecidableEq, Repr

namespace SubtreeWalk

/-- Finds the node on top of the stack. Its first child takes the place, and its
next sibling the place below. -/
def pull (forest : Forest) (walk : SubtreeWalk) : Option NodeId × SubtreeWalk :=
  match walk.stack with
  | [] => (none, walk)
  | id :: stack =>
    match forest[id]? with
    | none => (none, ⟨stack⟩)
    | some node => (some id, ⟨node.child.toList ++ (node.next.toList ++ stack)⟩)

/-- Without a circle the ways on from a node are a binary tree no deeper than
the forest has nodes. -/
instance : Walk SubtreeWalk where
  pull := pull
  bound forest walk := walk.stack.length * Nat.pow 2 forest.size

end SubtreeWalk

namespace Forest

/-- The nodes below a node, the node itself left out; none if it is not in the
array. -/
def walkBelow (forest : Forest) (id : NodeId) : SubtreeWalk :=
  ⟨(forest[id]?.bind Node.child).toList⟩

end Forest

end ParseForest
