import ParseForest.Forest

/-!
# `ParseForest.Walk`: going through the links one node at a time

A walk is a place in a forest from which nodes can be pulled. A pull answers
with a node, or with nothing, and in either case leaves the walk somewhere.
Nothing is not the end for good: whether a later pull finds a node again is up
to the kind of walk.

`Walk.items` are the nodes up to the first pull that finds nothing. Links that
lead around in a circle would make them infinitely many, so each kind of walk
names a bound that it does not exceed in any other case.
-/

set_option autoImplicit false

namespace ParseForest

/-- The walks whose place is a value of `σ`. -/
class Walk (σ : Type) where
  /-- The node found, if any, and the walk that is left. -/
  pull : Forest → σ → Option NodeId × σ
  /-- At least as many pulls as find a node before the first that finds none,
  unless the links lead around in a circle. -/
  bound : Forest → σ → Nat

namespace Walk

variable {σ : Type} [Walk σ]

/-- The answers to `count` pulls, behind the answers got before. -/
def pullsOnto (forest : Forest) :
    (count : Nat) → σ → Array (Option NodeId) → Array (Option NodeId)
  | 0, _, answers => answers
  | count + 1, walk, answers =>
    let (answer, rest) := pull forest walk
    pullsOnto forest count rest (answers.push answer)

/-- The answers to `count` pulls. -/
def pulls (forest : Forest) (count : Nat) (walk : σ) : List (Option NodeId) :=
  (pullsOnto forest count walk #[]).toList

/-- The walk that is left after `count` pulls. -/
def skip (forest : Forest) (count : Nat) (walk : σ) : σ :=
  Nat.repeat (fun walk => (pull forest walk).2) count walk

/-- The nodes found by at most `fuel` pulls, up to the first that finds none,
behind the nodes found before. -/
def itemsOnto (forest : Forest) : (fuel : Nat) → σ → Array NodeId → Array NodeId
  | 0, _, found => found
  | fuel + 1, walk, found =>
    match pull forest walk with
    | (some id, rest) => itemsOnto forest fuel rest (found.push id)
    | (none, _) => found

/-- The nodes found up to the first pull that finds none. -/
def items (forest : Forest) (walk : σ) : List NodeId :=
  (itemsOnto forest (bound forest walk) walk #[]).toList

end Walk

end ParseForest
