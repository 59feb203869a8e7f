import ParseForest.Node

/-!
# `ParseForest.Node.Field`: changing one field of a node

A `Node.Field` is a field of a node along with a value for it. The three flags
count as one field and are set together.
-/

set_option autoImplicit false

namespace ParseForest.Node

/-- A value for one field of a node. -/
inductive Field
  | name (value : String)
  | offset (value : ByteCount)
  | length (value : ByteCount)
  | parent (value : Option NodeId)
  | child (value : Option NodeId)
  | next (value : Option NodeId)
  | last (value : Option NodeId)
  | nextOut (value : UInt64)
  | flags (success removed collects : Bool)
deriving DecidableEq, Repr

/-- The node with one field changed. -/
def put (node : Node) : Field → Node
  | .name value => { node with name := value }
  | .offset value => { node with offset := value }
  | .length value => { node with length := value }
  | .parent value => { node with parent := value }
  | .child value => { node with child := value }
  | .next value => { node with next := value }
  | .last value => { node with last := value }
  | .nextOut value => { node with nextOut := value }
  | .flags success removed collects =>
    { node with success := success, removed := removed, collects := collects }

end ParseForest.Node
