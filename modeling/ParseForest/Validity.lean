import ParseForest.Event
import ParseForest.Validity.Rooted

/-!
# `ParseForest.Validity`: what a packable array looks like

An array can be packed if

* the parents of all nodes are in the array (`Forest.parentsPresent`);
* all chains of parents end at the root (`Forest.chainsRooted`);
* every collecting node with a parent has a sibling before it
  (`Forest.collectorsFollow`).

`Forest.check` asks for these in this order, each from the first slot to the
last, and answers with the first thing amiss. `Forest.inspect` also tells it.
Every question is settled in one run over the array, whatever its shape.
-/

set_option autoImplicit false

namespace ParseForest

namespace Forest

/-- The parent of a slot, if it has one, is in the array. -/
def parentPresent (forest : Forest) (id : NodeId) : Except Rejection Unit :=
  match forest.parent? id with
  | some parent =>
    if parent < forest.size then .ok () else .error (.parentOutside id parent)
  | none => .ok ()

/-- The parents of all nodes are in the array. -/
def parentsPresent (forest : Forest) : Except Rejection Unit :=
  (List.range forest.size).forM forest.parentPresent

/-- A collecting slot comes after a sibling. `seen` holds the parents of the
slots before; the parent of this one is put with them. -/
def collectorFollows (forest : Forest) (seen : Array Bool) (id : NodeId) :
    Except Rejection (Array Bool) :=
  match forest[id]? with
  | none => .ok seen
  | some node =>
    match node.parent with
    | none => .ok seen
    | some parent =>
      if node.collects ∧ seen[parent]? = some false then
        .error (.nothingBefore id)
      else
        .ok (seen.setIfInBounds parent true)

/-- Every collecting node with a parent has a sibling before it. -/
def collectorsFollow (forest : Forest) : Except Rejection Unit :=
  ((List.range forest.size).foldlM forest.collectorFollows
    (Array.replicate forest.size false)).map fun _ => ()

/-- The array can be packed, or else the first reason why not. -/
def check (forest : Forest) : Except Rejection Unit := do
  forest.parentsPresent
  forest.chainsRooted
  forest.collectorsFollow

/-- Checks an array, and tells why it is rejected if it is. -/
def inspect (forest : Forest) : Told (Except Rejection Unit) :=
  match forest.check with
  | .ok () => ⟨.ok (), #[]⟩
  | .error rejection => ⟨.error rejection, #[.rejected rejection]⟩

end Forest

end ParseForest
