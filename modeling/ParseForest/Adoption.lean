import ParseForest.ByteCount
import ParseForest.Event
import ParseForest.Links

/-!
# `ParseForest.Adoption`: collecting nodes take in the siblings before them

A node flagged as collecting stands for the run of siblings before it, and is to
become their parent. The matcher cannot know what it will cover, so its span is
set here: it starts where the first of the siblings starts, and is as long as
those of them that do not collect themselves.

The nodes that do not collect are visited from the root down, and the children
of each are gone through in order. `Brood` is the state in between: which
siblings a collecting node that comes now would take in, and how long they are.
A collecting node that was met is itself the first of the siblings for the next
one, and it is also the first child from then on. The children of collecting
nodes are not looked at.

`Adoption` holds the nodes still to be visited on a stack, so that of two
siblings the later is visited first. In a tree every node is visited once. Where
the root lies on a cycle it may be visited a second time, and a node that would
be visited a third time is visited for ever: `Adoption.run` gives up after twice
as many visits as there are nodes.

What a `Brood` keeps can also be read off the links: the run starts with the
first child of the parent, which the last collecting node has become, and goes
on along `next`. `ParseForest.Proofs.Adoption.InPlace` goes through the children
in this way, with neither a list of the children nor one of the run, and shows
that it comes to the same for every array.
-/

set_option autoImplicit false

namespace ParseForest

/-- The nodes, those of them still to be visited, and what was told. -/
structure Adoption where
  forest : Forest
  /-- The nodes to visit, next first. -/
  waiting : List NodeId
  events : Array Event
deriving DecidableEq, Repr

/-- The children of a node while they are gone through. -/
structure Brood where
  adoption : Adoption
  /-- The siblings passed since the last collecting one, it included, in
  order. -/
  run : Array NodeId
  /-- The length of all siblings passed that do not collect. -/
  length : ByteCount
deriving DecidableEq, Repr

namespace Forest

/-- The nodes from `ahead` on, each the next sibling of the one before, behind
those `found` before. A link out of the array is a fault, and so is a row of
more than `fuel` nodes, which leads around in a circle if there are no more in
the array. -/
def fetchRow (forest : Forest) :
    (fuel : Nat) → (ahead : Option NodeId) → (found : Array NodeId) →
      Except Fault (Array NodeId)
  | _, none, found => .ok found
  | 0, some _, _ => .error .endless
  | fuel + 1, some id, found => do
    let node ← forest.fetch id
    fetchRow forest fuel node.next (found.push id)

/-- Makes a node cover another stretch of text. -/
def cover (forest : Forest) (id : NodeId) (offset length : ByteCount) : Forest :=
  forest.modify id fun node => { node with offset := offset, length := length }

/-- Hangs some nodes under another one. A node that is not in the array is a
fault. -/
def hang (forest : Forest) (ids : Array NodeId) (parent : NodeId) : Except Fault Forest :=
  ids.foldlM (fun forest id => do
    let node ← forest.fetch id
    return forest.setIfInBounds id { node with parent := some parent }) forest

/-- Makes a node the first child of another one. -/
def leadWith (forest : Forest) (parent child : NodeId) : Forest :=
  forest.modify parent fun node => { node with child := some child }

end Forest

namespace Brood

/-- Passes a node that does not collect. It will be visited, and it is part of
what the next collecting sibling takes in. -/
def pass (brood : Brood) (id : NodeId) (node : Node) : Except Fault Brood :=
  match brood.length.add? node.length with
  | none => .error .sizeOverflow
  | some length => .ok
    -- What is passed last waits on top, and is visited first.
    { adoption := { brood.adoption with waiting := id :: brood.adoption.waiting }
      run := brood.run.push id
      length := length }

/-- Makes a collecting node the parent of the run before it, and the first child
of `parent`. It starts where the run does; where there is none, it stays where
it is. -/
def adopt (brood : Brood) (parent collector : NodeId) : Except Fault Brood := do
  -- The span is settled before any node is changed, so a collecting node without
  -- a run before it is its own first and keeps its offset.
  let first ← brood.adoption.forest.fetch (brood.run[0]?.getD collector)
  let covering := brood.adoption.forest.cover collector first.offset brood.length
  let hung ← covering.hang brood.run collector
  return {
    adoption :=
      { forest := hung.leadWith parent collector
        waiting := brood.adoption.waiting
        events := brood.adoption.events.push (.absorbed collector brood.run.size parent) }
    run := #[collector]
    length := brood.length }

/-- Goes on to the next child of `parent`. -/
def meet (parent : NodeId) (brood : Brood) (id : NodeId) : Except Fault Brood := do
  let node ← brood.adoption.forest.fetch id
  if node.collects then
    brood.adopt parent id
  else
    brood.pass id node

end Brood

namespace Adoption

/-- The children of a node go through adoption, in order. -/
def visit (adoption : Adoption) (parent : NodeId) : Except Fault Adoption := do
  let node ← adoption.forest.fetch parent
  let children ← adoption.forest.fetchRow adoption.forest.size node.child #[]
  let brood ← children.foldlM (Brood.meet parent) ⟨adoption, #[], 0⟩
  return brood.adoption

/-- Visits the nodes that wait, in at most `fuel` visits. -/
def run : (fuel : Nat) → Adoption → Except Fault Adoption
  | _, ⟨forest, [], events⟩ => .ok ⟨forest, [], events⟩
  | 0, ⟨_, _ :: _, _⟩ => .error .endless
  | fuel + 1, ⟨forest, id :: waiting, events⟩ => do
    run fuel (← visit ⟨forest, waiting, events⟩ id)

end Adoption

/-- All collecting nodes that can be reached from the root by way of nodes that
do not collect take in the siblings before them. Starts from fresh links. -/
def Forest.adoptRuns (forest : Forest) : Except Fault (Told Forest) := do
  if forest.isEmpty then
    return ⟨forest, #[]⟩
  let linked ← forest.relink
  let adoption ← Adoption.run (2 * forest.size) ⟨linked, [NodeId.root], #[]⟩
  return ⟨adoption.forest, adoption.events⟩

end ParseForest
