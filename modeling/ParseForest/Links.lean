import ParseForest.Forest

/-!
# `ParseForest.Links`: from parents to first children and next siblings

The nodes of a forest name their parents. `Forest.relink` derives the way down
from them: the first child of a node is the lowest slot whose parent it is, and
the next sibling of a node is the lowest slot behind it with the same parent.
The nodes without a parent count as siblings of each other. What `child` and
`next` held before does not matter.

The slots are gone through once, from the last to the first. `Links` holds what
is known when some are left: the lowest child seen so far of each node, the
lowest top-level node seen so far, and the next siblings of the nodes seen. The
lowest sibling seen when a node is reached is its next one.
-/

set_option autoImplicit false

namespace ParseForest

/-- The links found when only the slots below some slot are left to see. -/
structure Links where
  /-- By node: its next sibling, once the node was seen. -/
  next : Array (Option NodeId)
  /-- By node: the lowest of its children seen. -/
  child : Array (Option NodeId)
  /-- The lowest node seen that has no parent. -/
  top : Option NodeId
deriving DecidableEq, Repr

namespace Links

/-- The links of `size` nodes none of which was seen yet. -/
def unseen (size : Nat) : Links where
  next := Array.replicate size none
  child := Array.replicate size none
  top := none

/-- Takes in the next lower slot: the lowest sibling seen so far comes after it,
and from now on it is the lowest itself. -/
def see : Links → (id : NodeId) → (parent : Option NodeId) → Links
  | ⟨next, child, top⟩, id, none =>
    { next := next.setIfInBounds id top
      child := child
      top := some id }
  | ⟨next, child, top⟩, id, some parent =>
    -- What is behind the node is read before the node takes its place.
    { next := next.setIfInBounds id child[parent]?.join
      child := child.setIfInBounds parent (some id)
      top := top }

/-- Takes in the slots below `bound`, from the highest to the lowest. -/
def seeBelow (forest : Forest) : (bound : Nat) → Links → Links
  | 0, links => links
  | id + 1, links => seeBelow forest id (links.see id (forest.parent? id))

/-- The links of a forest whose parents are all in the array. -/
def ofForest (forest : Forest) : Links :=
  seeBelow forest forest.size (unseen forest.size)

end Links

namespace Forest

/-- Every node with the child and the next sibling that the parents imply. -/
def linked (forest : Forest) : Forest :=
  let links := Links.ofForest forest
  forest.mapIdx fun id node =>
    { node with
      child := links.child[id]?.join
      next := links.next[id]?.join }

/-- The parent of the lowest slot whose parent is not in the array. -/
def parentOutside? (forest : Forest) : Option NodeId :=
  forest.findSome? fun node => node.parent.filter (forest.size ≤ ·)

/-- Derives `child` and `next` from the parents. A parent that is not in the
array is a fault; of several, the one that comes first. -/
def relink (forest : Forest) : Except Fault Forest :=
  match forest.parentOutside? with
  | some outside => .error (.indexOutOfBounds forest.size outside)
  | none => .ok forest.linked

end Forest

end ParseForest
