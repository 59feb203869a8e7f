import ParseForest.Walk

/-!
# `ParseForest.Walk.Sibling`: along the next siblings

A walk along `next` links. `Forest.walkChildren` starts one at the first child
of a node, and `Forest.walkTop` at the first node without a parent. A link that
leads out of the array ends the walk for good.
-/

set_option autoImplicit false

namespace ParseForest

/-- A walk along siblings, before the node `ahead`. -/
structure SiblingWalk where
  ahead : Option NodeId
deriving DecidableEq, Repr

namespace SiblingWalk

/-- Finds the node ahead, after which the one behind it is ahead. A node that is
not in the array is never found, and stays ahead. -/
def pull (forest : Forest) (walk : SiblingWalk) : Option NodeId × SiblingWalk :=
  match walk.ahead with
  | none => (none, walk)
  | some id =>
    match forest[id]? with
    | none => (none, walk)
    | some node => (some id, ⟨node.next⟩)

/-- Without a circle no node is met twice. -/
instance : Walk SiblingWalk where
  pull := pull
  bound forest _ := forest.size

end SiblingWalk

namespace Forest

/-- The nodes under a node, from its first child on; none if the node is not in
the array. -/
def walkChildren (forest : Forest) (id : NodeId) : SiblingWalk :=
  ⟨forest[id]?.bind Node.child⟩

/-- The nodes without a parent, from the first in the array on. -/
def walkTop (forest : Forest) : SiblingWalk :=
  ⟨forest.topSlot?⟩

end Forest

end ParseForest
