import ParseForest.Forest

/-!
# `ParseForest.Forest.Growth`: many nodes at once

Large arrays come from one node appended over and over: beside itself, which
makes a wide forest (`Forest.pushCopies`), or each time under the one before,
which makes a deep one (`Forest.pushChain`).
-/

set_option autoImplicit false

namespace ParseForest.Forest

/-- Appends the same node `count` times. -/
def pushCopies (node : Node) : (count : Nat) → Forest → Forest
  | 0, forest => forest
  | count + 1, forest => pushCopies node count (forest.push node)

/-- Appends a node `count` times, each time but the first under the one appended
before. -/
def pushChain (node : Node) : (count : Nat) → Forest → Forest
  | 0, forest => forest
  | count + 1, forest =>
    pushChain { node with parent := some forest.size } count (forest.push node)

end ParseForest.Forest
