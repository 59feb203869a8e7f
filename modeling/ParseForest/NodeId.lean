/-!
# `ParseForest.NodeId`: how the nodes of a forest refer to each other

A forest keeps its nodes in one array, and a node refers to another by the slot
of the array that holds it. Such a reference owns nothing and may be stale: the
passes that follow one say what they do when the slot does not exist.
-/

set_option autoImplicit false

namespace ParseForest

/-- A node is known by the slot that holds it, counted from zero. -/
abbrev NodeId := Nat

namespace NodeId

/-- The root of a tree sits in the first slot. -/
abbrev root : NodeId := 0

/-- An id is written as a number sign and the slot in decimal digits. -/
def display (id : NodeId) : String :=
  "#" ++ Nat.repr id

end NodeId

end ParseForest
