import ParseForest.Forest

/-!
# `ParseForest.Compaction`: dropping the removed nodes

`Forest.compact` drops the nodes flagged as removed and closes the gaps. The
nodes that stay keep their order. A node whose parent goes is handed to the
nearest node above it that stays, and to the top level if there is none; parents
are renumbered with the nodes they refer to. Nothing else in a node changes, so
`child`, `next` and `last` still speak of the slots as they were.

Looking for the nearest kept node again and again could climb the same removed
nodes many times. `Resolution` therefore notes the answer for every removed node
climbed, and a climb that meets a note takes its answer. `Resolution.climb` is
one search, `Resolution.resolve` deals with one slot, and `Resolution.resolved`
is the state when the slots below some slot have been dealt with.

A parent outside the array is a fault if a climb meets it. A climb that passes
more nodes than there are goes around in a circle of removed nodes.

The nodes that stay are taken to a new array. They can be moved to the front of
the old one as well: `ParseForest.Proofs.Compaction.InPlace` has them change
places with the removed nodes before them, one by one, and shows that the same
nodes come to stand in front.
-/

set_option autoImplicit false

namespace ParseForest

/-- What is known while slot after slot is given its nearest kept ancestor. -/
structure Resolution where
  /-- The nodes. Those kept, of the slots dealt with, have their nearest kept
  ancestor for a parent. -/
  forest : Forest
  /-- By removed node: its nearest kept ancestor, if it is known. -/
  notes : Array (Option (Option NodeId))
deriving DecidableEq, Repr

namespace Resolution

/-- Nothing is known yet. -/
def ofForest (forest : Forest) : Resolution where
  forest := forest
  notes := Array.replicate forest.size none

/-- The nearest kept node at or above `start`, and the removed nodes climbed to
find it, behind those in `path`. At most `fuel` nodes are looked at. -/
def climbWithin (resolution : Resolution) :
    (fuel : Nat) → (start : Option NodeId) → (path : Array NodeId) →
      Except Fault (Option NodeId × Array NodeId)
  | 0, _, _ => .error .endless
  | _ + 1, none, path => .ok (none, path)
  | fuel + 1, some id, path =>
    -- Only removed nodes have notes, so a note says more than the node itself.
    match resolution.notes[id]?.join with
    | some ancestor => .ok (ancestor, path)
    | none =>
      match resolution.forest.fetch id with
      | .error fault => .error fault
      | .ok node =>
        if node.removed then resolution.climbWithin fuel node.parent (path.push id)
        else .ok (some id, path)

/-- The nearest kept node at or above `start`, and the removed nodes climbed to
find it. -/
def climb (resolution : Resolution) (start : Option NodeId) :
    Except Fault (Option NodeId × Array NodeId) :=
  resolution.climbWithin (resolution.forest.size + 1) start #[]

/-- Notes the nearest kept ancestor of a removed node. -/
def note (resolution : Resolution) (ancestor : Option NodeId) (id : NodeId) : Resolution :=
  { resolution with notes := resolution.notes.setIfInBounds id (some ancestor) }

/-- Deals with one slot: a removed node's nearest kept ancestor is noted, and a
kept node has it for a parent from now on. -/
def resolve (resolution : Resolution) (id : NodeId) : Except Fault Resolution := do
  let node ← resolution.forest.fetch id
  -- The climb goes through removed nodes alone, and only kept nodes have had their
  -- parents changed, so it follows the parents as they were.
  let (ancestor, path) ← resolution.climb node.parent
  let resolution := path.foldl (note · ancestor) resolution
  if node.removed then
    return resolution.note ancestor id
  else
    return { resolution with
      forest := resolution.forest.modify id fun node => { node with parent := ancestor } }

/-- What is known when the slots below `count` have been dealt with. -/
def resolved (forest : Forest) (count : Nat) : Except Fault Resolution :=
  (List.range count).foldlM resolve (ofForest forest)

end Resolution

namespace Forest

/-- The slots that the nodes move to: a kept node has as many nodes before it as
are kept of those before it now, and a removed node moves nowhere. -/
def newSlots (forest : Forest) : Array (Option NodeId) :=
  (forest.foldl (fun (slots, kept) node =>
    if node.removed then (slots.push none, kept) else (slots.push (some kept), kept + 1))
    ((#[], 0) : Array (Option NodeId) × Nat)).1

/-- Drops the removed nodes of an array in which no kept node has a removed
parent, and renumbers the parents. -/
def dropRemoved (forest : Forest) : Forest :=
  let slots := forest.newSlots
  forest.filterMap fun node =>
    if node.removed then none
    else some { node with parent := node.parent.bind fun parent => slots[parent]?.join }

/-- Drops the removed nodes and hands what they held to the nodes above them. -/
def compact (forest : Forest) : Except Fault Forest := do
  let resolution ← Resolution.resolved forest forest.size
  return resolution.forest.dropRemoved

end Forest

end ParseForest
