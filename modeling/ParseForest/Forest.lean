import ParseForest.Node

/-!
# `ParseForest.Forest`: nodes in an array

A `Forest` is an array of nodes that refer to each other by slot. The type asks
nothing of the references: they may lead out of the array or around in a circle,
and `child` and `next` need not agree with `parent`. What an operation demands,
it says.

This module looks nodes up. `Forest.parent?` is the reference the passes turn
on; `Forest.nodeAt` and `Forest.nodeNamed` are for callers who know that the
node is there, and answer with a fault if it is not.
-/

set_option autoImplicit false

namespace ParseForest

/-- Nodes, each known by its slot. -/
abbrev Forest := Array Node

namespace Forest

/-- The parent of a node; none at the top level and outside the array. -/
def parent? (forest : Forest) (id : NodeId) : Option NodeId :=
  forest[id]?.bind Node.parent

/-- The node that a link leads to. A link out of the array is a fault. -/
def fetch (forest : Forest) (id : NodeId) : Except Fault Node :=
  match forest[id]? with
  | some node => .ok node
  | none => .error (.indexOutOfBounds forest.size id)

/-- The node at a slot that the caller takes to exist. -/
def nodeAt (forest : Forest) (id : NodeId) : Except Fault Node :=
  match forest[id]? with
  | some node => .ok node
  | none => .error (.noSuchNode id forest.size)

/-- The lowest slot whose node has a given name. -/
def slotNamed? (forest : Forest) (name : String) : Option NodeId :=
  forest.findIdx? fun node => node.name == name

/-- The node in the lowest slot with a given name, which the caller takes to
exist. -/
def nodeNamed (forest : Forest) (name : String) : Except Fault Node :=
  match forest.find? fun node => node.name == name with
  | some node => .ok node
  | none => .error (.noSuchName name)

/-- The lowest slot whose node is at the top level. -/
def topSlot? (forest : Forest) : Option NodeId :=
  forest.findIdx? fun node => node.parent.isNone

end Forest

end ParseForest
