import ParseForest.Proofs.Compaction

/-!
# `ParseForest.Proofs.Compaction.Stages`: dropping some removed nodes first

The removed nodes of an array can be dropped in two runs. For the first run
`Forest.removingOnly` leaves the flag on some of them only; before the second
run `Forest.flagAgain` sets it on the others again, wherever the first run has
moved them.

* A node that stays in the end has moved twice, to where it would have moved at
  once (`Forest.FirstStage.newSlot_newSlot`).
* A climb over all removed nodes is cut at those that the first run left. Each
  piece is a climb of the first run, and the ends of the pieces are what the
  second run climbs (`Forest.FirstStage.climb`). So circles of parents do no
  harm, as long as no circle goes through removed nodes alone.

`Forest.compact_in_stages` says that the two runs together leave what one run
leaves.
-/

set_option autoImplicit false

namespace ParseForest.Forest

variable {forest staged : Forest} {now : NodeId → Bool} {f : NodeId → Node → Node} {k : NodeId}

/-- The slot holds a node that is to be dropped. -/
def removedAt (forest : Forest) (k : NodeId) : Bool := forest[k]?.any Node.removed

/-- The array with the flag for removal left on the slots of `now` only. -/
def removingOnly (forest : Forest) (now : NodeId → Bool) : Forest :=
  forest.mapIdx fun k node => { node with removed := node.removed && now k }

/-- The slots whose nodes stay, in order. In the compacted array the nodes are
in this order. -/
def keptSlots (forest : Forest) : List NodeId := (List.range forest.size).filter forest.keptAt

/-- A compacted array with the flag for removal set on the nodes that came from
some slots: `origins` are the slots that all its nodes came from. -/
def flagAgain (left : Forest) (origins : List NodeId) (later : NodeId → Bool) : Forest :=
  left.mapIdx fun j node => { node with removed := node.removed || origins[j]?.any later }

/-! ### Where the nodes came from -/

/-- The node in the slot that a node moves to came from there. -/
theorem getElem?_keptSlots (hk : forest.keptAt k = true) :
    forest.keptSlots[forest.newSlot k]? = some k := by
  obtain ⟨behind, hsize⟩ := Nat.exists_eq_add_of_le (Nat.succ_le_of_lt (lt_size_of_keptAt hk))
  have hlength : ((List.range k).filter forest.keptAt).length = forest.newSlot k := by
    rw [newSlot, List.countP_eq_length_filter]
  rw [keptSlots, hsize, List.range_add, List.range_succ, List.filter_append, List.filter_append,
    List.append_assoc, List.getElem?_append_right (Nat.le_of_eq hlength), hlength, Nat.sub_self]
  simp [hk]

/-- Flags set on the nodes that stay are set by the slots that they come from.
So they can be set before the nodes are moved, too. -/
theorem flagAgain_keptWhere (forest : Forest) (f : NodeId → Node → Node)
    (later : NodeId → Bool) :
    (forest.keptWhere f).flagAgain forest.keptSlots later =
      forest.keptWhere fun k node =>
        { f k node with removed := (f k node).removed || later k } := by
  refine eq_keptWhere ?_ fun k node hnode hremoved => ?_
  · rw [flagAgain, Array.size_mapIdx, size_keptWhere]
  · have hk := keptAt_of_stays hnode hremoved
    rw [flagAgain, Array.getElem?_mapIdx, getElem?_keptWhere forest f hnode hremoved,
      getElem?_keptSlots hk]
    rfl

/-! ### After the first run -/

/-- `left` are the nodes of `forest` that stay in `staged`, each with its flag
and under the nearest node above it that stays there too. -/
structure FirstStage (forest staged left : Forest) : Prop where
  size_eq : staged.size = forest.size
  wayUp_eq : staged.wayUp = forest.wayUp
  kept : ∀ k, forest.keptAt k = true → staged.keptAt k = true
  left_size : left.size = staged.newSlot forest.size
  left_node : ∀ k node, staged.keptAt k = true → forest[k]? = some node →
    left[staged.newSlot k]? = some
      { node with parent := (staged.nearestKept? forest.wayUp k).map staged.newSlot }

/-- What a slot holds when some flags are cleared: the same node, flagged if it
was and is to go now. -/
theorem getElem?_removingOnly (forest : Forest) (now : NodeId → Bool) (k : NodeId) :
    (forest.removingOnly now)[k]? =
      forest[k]?.map fun node => { node with removed := node.removed && now k } := by
  rw [removingOnly, Array.getElem?_mapIdx]

/-- Clearing flags takes out no slot. -/
@[simp] theorem size_removingOnly (forest : Forest) (now : NodeId → Bool) :
    (forest.removingOnly now).size = forest.size :=
  Array.size_mapIdx

/-- Clearing flags changes no parent. -/
@[simp] theorem parent?_removingOnly (forest : Forest) (now : NodeId → Bool) (k : NodeId) :
    (forest.removingOnly now).parent? k = forest.parent? k := by
  rw [parent?, getElem?_removingOnly, parent?]
  cases forest[k]? <;> rfl

/-- Clearing flags leaves the way up as it was, cycles included. -/
theorem wayUp_removingOnly (forest : Forest) (now : NodeId → Bool) :
    (forest.removingOnly now).wayUp = forest.wayUp :=
  funext (forest.parent?_removingOnly now)

/-- The first run over an array, and the flags that it was spared set again. Of
a node that stays, the flag was cleared exactly if it is set again. -/
theorem firstStage_removingOnly (forest : Forest) (now : NodeId → Bool) :
    forest.FirstStage (forest.removingOnly now)
      ((forest.removingOnly now).pruned.flagAgain (forest.removingOnly now).keptSlots
        fun k => forest.removedAt k && !now k) := by
  have hkeptAt : ∀ k node, forest[k]? = some node →
      (forest.removingOnly now).keptAt k = !(node.removed && now k) := by
    intro k node hnode
    rw [keptAt, getElem?_removingOnly, hnode]
    rfl
  rw [pruned, flagAgain_keptWhere, wayUp_removingOnly]
  constructor
  case size_eq => exact forest.size_removingOnly now
  case wayUp_eq => exact forest.wayUp_removingOnly now
  case kept =>
    intro k hk
    obtain ⟨node, hnode, hremoved⟩ := exists_node_of_keptAt hk
    rw [hkeptAt k node hnode, hremoved]
    rfl
  case left_size => rw [size_keptWhere, size_removingOnly]
  case left_node =>
    intro k node hk hnode
    have hstaged : (forest.removingOnly now)[k]? =
        some { node with removed := node.removed && now k } := by
      rw [getElem?_removingOnly, hnode]
      rfl
    have hremoved : (node.removed && now k) = false := by
      rwa [hkeptAt k node hnode, Bool.not_eq_true'] at hk
    -- Of a node that stays, the flag was cleared exactly if it is set again.
    have hflag : (node.removed && now k || forest.removedAt k && !now k) = node.removed := by
      rw [removedAt, hnode, Option.any_some, ← Bool.and_or_distrib_left, Bool.or_not_self,
        Bool.and_true]
    rw [getElem?_keptWhere _ _ hstaged hremoved]
    simp only [hflag]

namespace FirstStage

variable {left : Forest} {start ancestor : Option NodeId} {path : List NodeId}

/-- The nodes left are flagged as they were. -/
theorem keptAt_newSlot (h : forest.FirstStage staged left) (hk : staged.keptAt k = true) :
    left.keptAt (staged.newSlot k) = forest.keptAt k := by
  have hlt := lt_size_of_keptAt hk
  rw [h.size_eq] at hlt
  have hnode := Array.getElem?_eq_getElem hlt
  rw [keptAt_eq (h.left_node k _ hk hnode), keptAt_eq hnode]

/-- In the array left by the first run, a node is under the nearest node above
it that this run has left. -/
theorem parent?_newSlot (h : forest.FirstStage staged left) (hk : staged.keptAt k = true) :
    left.parent? (staged.newSlot k) =
      (staged.nearestKept? forest.wayUp k).map staged.newSlot := by
  have hlt := lt_size_of_keptAt hk
  rw [h.size_eq] at hlt
  exact parent?_eq (h.left_node k _ hk (Array.getElem?_eq_getElem hlt))

/-- A node moves in two runs to where it moves in one. The first run takes out
some of the removed nodes before it, and the second one the others. -/
theorem newSlot_newSlot (h : forest.FirstStage staged left) (k : NodeId) :
    left.newSlot (staged.newSlot k) = forest.newSlot k := by
  induction k with
  | zero => rfl
  | succ k ih =>
    rw [newSlot_succ, newSlot_succ]
    cases hk : staged.keptAt k with
    | true =>
      show left.newSlot (staged.newSlot k + 1) = _
      rw [newSlot_succ, ih, h.keptAt_newSlot hk]
    | false =>
      -- What goes in the first run is not there in the second one, and does not stay.
      have hgone : forest.keptAt k = false := by
        rw [← Bool.not_eq_true]
        intro hkept
        rw [h.kept k hkept] at hk
        cases hk
      rw [hgone]
      exact ih

/-- A climb is done in two stages: past nodes that go in the first run to one
that this run leaves, and from there on, among what it left, past those that go
in the second run. The induction is on the whole climb. -/
theorem climb (h : forest.FirstStage staged left)
    (hclimb : forest.Climb start path ancestor) :
    ∃ path' first path'', staged.Climb start path' first ∧
      left.Climb (first.map staged.newSlot) path'' (ancestor.map staged.newSlot) := by
  induction hclimb with
  | top => exact ⟨[], none, [], .top, .top⟩
  | @kept id hkept =>
    have hstaged := h.kept id hkept
    refine ⟨[], some id, [], .kept hstaged, .kept ?_⟩
    rw [h.keptAt_newSlot hstaged, hkept]
  | @removed id path ancestor hid hgone _ ih =>
    obtain ⟨path', first, path'', hfirst, hsecond⟩ := ih
    have hparent : staged.parent? id = forest.parent? id := congrFun h.wayUp_eq id
    rw [← hparent] at hfirst
    cases hstaged : staged.keptAt id with
    | false =>
      have hlt : id < staged.size := h.size_eq ▸ hid
      exact ⟨id :: path', first, path'', .removed hlt hstaged hfirst, hsecond⟩
    | true =>
      -- The first stage ends here, and the second one starts with this node.
      have hnearest := hfirst.nearestKept?_eq
      have hlt : staged.newSlot id < left.size := by
        rw [h.left_size]
        exact newSlot_lt hstaged hid
      refine ⟨[], some id, staged.newSlot id :: path'', .kept hstaged, .removed hlt ?_ ?_⟩
      · rw [h.keptAt_newSlot hstaged, hgone]
      · rw [h.parent?_newSlot hstaged, ← h.wayUp_eq, hnearest]
        exact hsecond

/-- Of every node left the nearest node above that stays is the one it would
have had at once, and the climb in the second run ends there. -/
theorem nearestKept?_newSlot (h : forest.FirstStage staged left) (hk : staged.keptAt k = true)
    (hclimb : forest.Climb (forest.parent? k) path ancestor) :
    (∃ path'', left.Climb (left.parent? (staged.newSlot k)) path''
        (ancestor.map staged.newSlot)) ∧
      left.nearestKept? left.wayUp (staged.newSlot k) = ancestor.map staged.newSlot := by
  obtain ⟨path', first, path'', hfirst, hsecond⟩ := h.climb hclimb
  have hparent : staged.parent? k = forest.parent? k := congrFun h.wayUp_eq k
  rw [← hparent] at hfirst
  rw [← hfirst.nearestKept?_eq, h.wayUp_eq, ← h.parent?_newSlot hk] at hsecond
  exact ⟨⟨path'', hsecond⟩, hsecond.nearestKept?_eq⟩

/-- If all climbs end, the second run leaves what one run over the whole array
leaves. Both arrays are compared slot by slot, each slot being the one that some
node that stays has moved to. -/
theorem compact_eq (h : forest.FirstStage staged left)
    (hclimbs : ∀ k, ∃ path ancestor, forest.Climb (forest.parent? k) path ancestor) :
    left.compact = .ok forest.pruned := by
  -- The second run can be made: from every node that is left, the climb ends.
  have hleft : ∀ j, ∃ path ancestor, left.Climb (left.parent? j) path ancestor := by
    intro j
    rcases Nat.lt_or_ge j left.size with hj | hj
    · rw [h.left_size, ← h.size_eq] at hj
      obtain ⟨k, hk, rfl⟩ := exists_newSlot_eq staged hj
      obtain ⟨path, ancestor, hclimb⟩ := hclimbs k
      obtain ⟨path'', hsecond⟩ := (h.nearestKept?_newSlot hk hclimb).1
      exact ⟨path'', _, hsecond⟩
    · rw [parent?_of_size_le hj]
      exact ⟨[], none, .top⟩
  rw [Forest.compact_eq hleft]
  refine congrArg Except.ok (eq_keptWhere ?_ fun k node hnode hremoved => ?_)
  · rw [pruned, size_keptWhere, h.left_size, h.newSlot_newSlot]
  · -- A node that stays in the end has stayed in the first run.
    have hstaged := h.kept k (keptAt_of_stays hnode hremoved)
    obtain ⟨path, ancestor, hclimb⟩ := hclimbs k
    have hnearest := (h.nearestKept?_newSlot hstaged hclimb).2
    rw [← h.newSlot_newSlot k, pruned,
      getElem?_keptWhere _ _ (h.left_node k node hstaged hnode) hremoved, hnearest,
      hclimb.nearestKept?_eq, Option.map_map]
    have hslots : left.newSlot ∘ staged.newSlot = forest.newSlot := funext h.newSlot_newSlot
    rw [hslots]

end FirstStage

/-! ### Both runs -/

/-- With some flags cleared, the parents are still in the array. -/
theorem closed_removingOnly (hclosed : forest.Closed) (now : NodeId → Bool) :
    (forest.removingOnly now).Closed := by
  intro k p hp
  rw [parent?_removingOnly] at hp
  rw [size_removingOnly]
  exact hclosed k p hp

/-- No node goes in the first run that would have stayed, so no circle of
removed nodes comes about. -/
theorem NoRemovedCycle.removingOnly (h : forest.NoRemovedCycle) (now : NodeId → Bool) :
    (forest.removingOnly now).NoRemovedCycle := by
  intro k hk
  rw [wayUp_removingOnly] at hk ⊢
  obtain ⟨a, hak, hka, hkept⟩ := h k hk
  exact ⟨a, hak, hka, (forest.firstStage_removingOnly now).kept a hkept⟩

/-- The removed nodes of an array can be dropped all at once, or first those of
any choice and then the others, flagged again where they are by then: the same
array is left. The parents have to be in the array, and no circle of them may go
through removed nodes alone. -/
theorem compact_in_stages (forest : Forest) (now : NodeId → Bool) (hclosed : forest.Closed)
    (hcycle : forest.NoRemovedCycle) :
    ∃ left out, (forest.removingOnly now).compact = .ok left ∧
      (left.flagAgain (forest.removingOnly now).keptSlots
        fun k => forest.removedAt k && !now k).compact = .ok out ∧
      forest.compact = .ok out := by
  have hclimbs := hcycle.exists_climb hclosed
  have hfirst := (hcycle.removingOnly now).exists_climb (closed_removingOnly hclosed now)
  have hstage := forest.firstStage_removingOnly now
  exact ⟨_, _, compact_eq hfirst, hstage.compact_eq hclimbs,
    compact_eq hclimbs⟩

/-- A circle of three nodes one of which stays, with another node under it, and
a node under two removed ones. -/
def circled : Forest := #[
  { Node.fresh "low" (some 4) 0 with removed := true },
  { Node.fresh "stays" (some 2) 1 with length := 1 },
  { Node.fresh "first" (some 3) 1 with removed := true },
  { Node.fresh "second" (some 1) 1 with removed := true },
  { Node.fresh "top" none 0 with removed := true },
  { Node.fresh "leaf" (some 0) 4 with length := 2 },
  { Node.fresh "below" (some 2) 3 with collects := true }]

example : circled.pruned.map (fun node => (node.name, node.parent)) =
    #[("stays", some 0), ("leaf", none), ("below", some 0)] := by
  decide +kernel

/-- The hypotheses hold of `circled`, of whose removed nodes those in even slots
go first: one on the circle, one above a leaf, and one at the top level. -/
theorem compact_in_stages_circled :
    circled.Closed ∧ circled.NoRemovedCycle ∧
      ∃ left out, (circled.removingOnly fun k => k % 2 = 0).compact = .ok left ∧
        (left.flagAgain (circled.removingOnly fun k => k % 2 = 0).keptSlots
          fun k => circled.removedAt k && !decide (k % 2 = 0)).compact = .ok out ∧
        circled.compact = .ok out := by
  have hclosed : circled.Closed := by decide
  have hcycle : circled.NoRemovedCycle := by decide
  exact ⟨hclosed, hcycle, compact_in_stages circled _ hclosed hcycle⟩

end ParseForest.Forest
