import ParseForest.Adoption
import ParseForest.Compaction
import ParseForest.Validity

/-!
# `ParseForest.Packing`: from a matcher's array to a linked tree

A matcher leaves an array of which it used the first `top` slots. `Forest.pack`
makes a tree of these: it checks them, lets collecting nodes take in the
siblings before them, drops the removed nodes and links what is left. Adoption
comes first because it speaks of siblings as the matcher left them, and links
come last because both other passes change parents.

An array that is not a tree is rejected, which is an answer. A fault can only be
a sum of lengths that 64 bits do not hold, because the passes have no other
demands on an array that was checked.
-/

set_option autoImplicit false

namespace ParseForest

/-- The tree made of the first `top` slots of an array, or the reason to reject
it, with what was told. -/
def Forest.pack (forest : Forest) (top : Nat) :
    Except Fault (Told (Except Rejection Forest)) := do
  if forest.size < top then
    return ⟨.error (.topBeyondArray top forest.size), #[]⟩
  let used : Forest := forest.take top
  match used.inspect with
  | ⟨.error rejection, events⟩ => return ⟨.error rejection, events⟩
  | ⟨.ok (), events⟩ =>
    let adopted ← used.adoptRuns
    let kept ← adopted.answer.compact
    let linked ← kept.relink
    return ⟨.ok linked, events ++ adopted.events.push (.packed top kept.size)⟩

end ParseForest
