import ParseForest.NodeId

/-!
# `ParseForest.Fault`: why an operation gives up

The passes of this library trust their input: that every reference leads to a
node and that sums of lengths stay within 64 bits. A pass that finds its trust
misplaced stops with a `Fault`, and nothing of what it has done is kept. Faults
are for callers that skipped the checks of `ParseForest.Validity`; what those
checks report is a `Rejection`.
-/

set_option autoImplicit false

namespace ParseForest

/-- What went wrong in an operation whose demands were not met. -/
inductive Fault
  /-- A reference leads to `index`, past the `size` slots there are. -/
  | indexOutOfBounds (size index : Nat)
  /-- A sum of byte counts does not fit 64 bits. -/
  | sizeOverflow
  /-- A node was asked for by an id past the `size` slots there are. -/
  | noSuchNode (id : NodeId) (size : Nat)
  /-- A node was asked for by a name that no node has. -/
  | noSuchName (name : String)
  /-- The links the pass follows lead around in a circle, so it would never
  end. -/
  | endless
deriving DecidableEq, Repr

/-- The wording of a fault. -/
def Fault.message : Fault → String
  | indexOutOfBounds size index =>
    "index out of bounds: the len is " ++ Nat.repr size ++ " but the index is " ++ Nat.repr index
  | sizeOverflow => "attempt to add with overflow"
  | noSuchNode id size => "no node " ++ id.display ++ " in array of " ++ Nat.repr size
  | noSuchName name => "no node named " ++ name
  | endless => "the links lead around in a circle"

end ParseForest
