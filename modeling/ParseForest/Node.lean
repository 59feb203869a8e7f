import ParseForest.ByteCount
import ParseForest.Fault

/-!
# `ParseForest.Node`: one application of a grammar rule

A matcher that reads a text from left to right leaves one node for each rule it
applied. `Node` is that record. Of its references only `parent` carries
information when the matcher is done; `child` and `next` are filled in by
`ParseForest.Links`, and `last` and `nextOut` are the matcher's own notes, which
every operation of this library hands on as they are.

`Node.span` is the stretch of text that the node covers. A span that ends past
the last position 64 bits can name does not exist, which is a fault.
-/

set_option autoImplicit false

namespace ParseForest

/-- The record of one rule application. -/
structure Node where
  /-- The rule. -/
  name : String
  /-- Where the matched text starts. -/
  offset : ByteCount
  /-- How long the matched text is. -/
  length : ByteCount
  /-- The node this one belongs under; none at the top level. -/
  parent : Option NodeId
  /-- The first of the nodes under this one. -/
  child : Option NodeId
  /-- The sibling after this one. -/
  next : Option NodeId
  /-- A note of the matcher. -/
  last : Option NodeId
  /-- A note of the matcher. -/
  nextOut : UInt64
  /-- The rule matched. -/
  success : Bool
  /-- The node is to be dropped, and what it holds belongs to the nodes above
  it. -/
  removed : Bool
  /-- The node is to take in the siblings before it. -/
  collects : Bool
deriving DecidableEq, Repr

/-- A stretch of text, from `start` up to and without `stop`. -/
structure Span where
  start : ByteCount
  stop : ByteCount
deriving DecidableEq, Repr

namespace Node

/-- A node as the matcher makes it: it covers nothing, leads nowhere, and none
of its flags is set. -/
def fresh (name : String) (parent : Option NodeId) (offset : ByteCount) : Node where
  name := name
  offset := offset
  length := 0
  parent := parent
  child := none
  next := none
  last := none
  nextOut := 0
  success := false
  removed := false
  collects := false

/-- The stretch of text that a node covers. -/
def span (node : Node) : Except Fault Span :=
  match ByteCount.add? node.offset node.length with
  | some stop => .ok ⟨node.offset, stop⟩
  | none => .error .sizeOverflow

/-- A node has a span exactly when its end is a position that 64 bits can name,
and the span then runs from where the node starts over the length of the
node. -/
theorem span_eq_ok_iff {node : Node} {span : Span} :
    node.span = .ok span ↔
      span.start = node.offset ∧
        span.stop.toNat = node.offset.toNat + node.length.toNat := by
  obtain ⟨start, stop⟩ := span
  rw [← ByteCount.add?_eq_some_iff]
  unfold Node.span
  split <;> rename_i h <;> simp [h, eq_comm]

end Node

end ParseForest
