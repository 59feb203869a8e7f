import ParseForest.Forest
import ParseForest.Rejection

/-!
# `ParseForest.Validity.Rooted`: do all parent chains end at the root?

From each slot in turn the chain of parents is climbed, up to the root or to a
node from which the root was reached before. A chain that comes back to a node
it has passed is a cycle, and one that ends at a node other than the root has
left the tree; either is the reason to reject the array.

Every node has a `Standing`, and `Trail` is the state of the climb. Between two
starts no climb is under way. `Trail.step` is one step, `Trail.follow` the climb
from one start, and `Forest.chainsRooted` the whole. A climb ends because every
step that goes on leaves one node less of which nothing is known
(`unknown_step`).
-/

set_option autoImplicit false

namespace ParseForest

/-- What is known of a node while chains are climbed. -/
inductive Standing
  /-- Nothing. -/
  | unknown
  /-- The climb under way has passed it. -/
  | passed
  /-- Its chain ends at the root. -/
  | rooted
deriving DecidableEq, Repr

/-- What is known of all nodes, and the nodes that the climb under way has
passed, in the order in which it did. -/
structure Trail where
  standings : Array Standing
  path : Array NodeId
deriving DecidableEq, Repr

namespace Trail

/-- Nothing is known of `size` nodes. -/
def blank (size : Nat) : Trail where
  standings := Array.replicate size .unknown
  path := #[]

/-- The climb passes a node. -/
def pass (trail : Trail) (id : NodeId) : Trail where
  standings := trail.standings.setIfInBounds id .passed
  path := trail.path.push id

/-- The climb has reached the root: what it passed is rooted, and it is over. -/
def settle (trail : Trail) : Trail where
  standings :=
    trail.path.foldl (fun standings id => standings.setIfInBounds id .rooted) trail.standings
  path := #[]

/-- One step of a climb: the trail after it, and the node to go on with if the
climb does not end here. -/
def step (forest : Forest) (trail : Trail) (id : NodeId) :
    Except Rejection (Trail × Option NodeId) :=
  match trail.standings[id]? with
  | none | some .rooted => .ok (trail, none)
  | some .passed => .error (.cycle id)
  | some .unknown =>
    match forest.parent? id with
    | some parent => .ok (trail.pass id, some parent)
    | none => if id = NodeId.root then .ok (trail.pass id, none) else .error (.stray id)

/-- How many nodes there are of which nothing is known. -/
def unknown (trail : Trail) : Nat :=
  trail.standings.count .unknown

/-- Passing a node of which nothing was known leaves one such node less: it is
on the trail from now on. -/
theorem unknown_pass {trail : Trail} {id : NodeId}
    (h : trail.standings[id]? = some .unknown) :
    (trail.pass id).unknown < trail.unknown := by
  obtain ⟨hid, hstanding⟩ := Array.getElem?_eq_some_iff.1 h
  have hpos : 0 < trail.standings.count .unknown :=
    Array.count_pos_iff.2 (hstanding ▸ Array.getElem_mem hid)
  have hset : (trail.pass id).standings = trail.standings.set id .passed hid := by
    simp only [pass, Array.setIfInBounds, hid, dite_true]
  have hcount : (trail.standings.set id .passed hid).count .unknown
      = trail.standings.count .unknown - 1 := by
    rw [Array.count_set, hstanding]
    rfl
  rw [unknown, unknown, hset, hcount]
  omega

/-- A step that goes on leaves one node less of which nothing is known, so a
walk up the parents ends, around a circle too. -/
theorem unknown_step {forest : Forest} {trail trail' : Trail} {id parent : NodeId}
    (h : trail.step forest id = .ok (trail', some parent)) :
    trail'.unknown < trail.unknown := by
  unfold step at h
  split at h
  · cases h
  · cases h
  · cases h
  · rename_i hstanding
    split at h
    · cases h
      exact unknown_pass hstanding
    · split at h <;> cases h

/-- Climbs from a node until the climb ends. -/
def follow (forest : Forest) (trail : Trail) (id : NodeId) : Except Rejection Trail :=
  match h : trail.step forest id with
  | .error rejection => .error rejection
  | .ok (trail', none) => .ok trail'
  | .ok (trail', some parent) =>
    have := unknown_step h
    follow forest trail' parent
termination_by trail.unknown

/-- Climbs from a slot, after which what was passed is rooted. -/
def climbFrom (forest : Forest) (trail : Trail) (start : NodeId) : Except Rejection Trail :=
  (trail.follow forest start).map settle

/-- The trail before the climb from the slot `count`: all lower slots were
climbed from. -/
def afterStarts (forest : Forest) (count : Nat) : Except Rejection Trail :=
  (List.range count).foldlM (climbFrom forest) (blank forest.size)

end Trail

/-- Every chain of parents ends at the root. -/
def Forest.chainsRooted (forest : Forest) : Except Rejection Unit :=
  (Trail.afterStarts forest forest.size).map fun _ => ()

end ParseForest
