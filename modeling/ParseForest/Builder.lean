import ParseForest.Forest

/-!
# `ParseForest.Builder`: trees put together by hand

A builder makes arrays as a matcher leaves them: nodes are only ever appended,
each after its parent, and flagged afterwards. `Builder.start` makes the root,
`Builder.add` a node under another one, and `Builder.finish` hands over the
array. A parent is not checked to exist, and flagging a node that does not is no
error.

`Builder.Call` is one call to a builder as a value, and `Builder.perform` makes
some calls one after the other.
-/

set_option autoImplicit false

namespace ParseForest

/-- An array in the making. -/
structure Builder where
  forest : Forest
deriving DecidableEq, Repr

/-- One call to a builder. -/
inductive Builder.Call
  | add (parent : NodeId) (name : String) (offset length : ByteCount)
  | markRemoved (id : NodeId)
  | markCollecting (id : NodeId)
deriving DecidableEq, Repr

namespace Builder

/-- A node whose rule matched some text. -/
def matched (name : String) (parent : Option NodeId) (offset length : ByteCount) : Node :=
  { Node.fresh name parent offset with length := length, success := true }

/-- A tree of a root alone. -/
def start (name : String) (offset length : ByteCount) : Builder :=
  ⟨#[matched name none offset length]⟩

/-- Appends a node under `parent`, and answers with its id. -/
def add (builder : Builder) (parent : NodeId) (name : String) (offset length : ByteCount) :
    NodeId × Builder :=
  (builder.forest.size, ⟨builder.forest.push (matched name (some parent) offset length)⟩)

/-- Flags a node as removed. -/
def markRemoved (builder : Builder) (id : NodeId) : Builder :=
  ⟨builder.forest.modify id fun node => { node with removed := true }⟩

/-- Flags a node as collecting. -/
def markCollecting (builder : Builder) (id : NodeId) : Builder :=
  ⟨builder.forest.modify id fun node => { node with collects := true }⟩

/-- The finished array. -/
def finish (builder : Builder) : Forest :=
  builder.forest

/-- Makes one call. `ids` are the answers to the calls before it. -/
def call (state : Array NodeId × Builder) : Call → Array NodeId × Builder
  | .add parent name offset length =>
    let (id, builder) := state.2.add parent name offset length
    (state.1.push id, builder)
  | .markRemoved id => (state.1, state.2.markRemoved id)
  | .markCollecting id => (state.1, state.2.markCollecting id)

/-- Makes some calls in order, and answers with the ids of the nodes added. -/
def perform (builder : Builder) (calls : List Call) : Array NodeId × Builder :=
  calls.foldl call (#[], builder)

end Builder

end ParseForest
