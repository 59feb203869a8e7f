import ParseForest.Compaction
import ParseForest.Proofs.Tree

/-!
# `ParseForest.Proofs.Compaction.Kept`: the nodes that stay, and where they go

A node that stays moves to the slot that counts the nodes before it that stay
(`Forest.newSlot`). `Forest.keptWhere` is the array of those nodes, each changed
in some way that may look at the slot it comes from; `Forest.getElem?_keptWhere`
and `Forest.exists_newSlot_eq` say what the slots of that array hold.
`Forest.nearestKept?` is the first slot on a way up whose node stays. Where it
is the new parent of every node that stays (`Forest.UnderNearest`), the same of
these nodes are above each other as before (`Forest.UnderNearest.above_iff`).

`Forest.dropRemoved_eq` shows that the one run over the array that renumbers the
parents makes such an array.
-/

set_option autoImplicit false

namespace ParseForest.Forest

variable {forest : Forest} {f : NodeId → Node → Node} {node : Node} {k j : NodeId}

/-- The slot holds a node that is to stay. -/
def keptAt (forest : Forest) (k : NodeId) : Bool := forest[k]?.any fun node => !node.removed

/-- How many nodes before a slot stay: the slot that its node moves to, if that
one stays. -/
def newSlot (forest : Forest) (k : NodeId) : NodeId := (List.range k).countP forest.keptAt

/-- The first slot on the way up from a slot whose node stays. -/
def nearestKept? (forest : Forest) (up : WayUp) (k : NodeId) : Option NodeId :=
  (up.ascent forest.size k).find? forest.keptAt

/-- The nodes that stay, in order, each changed in a way that may depend on its
slot. -/
def keptWhere (forest : Forest) (f : NodeId → Node → Node) : Forest :=
  ((List.range forest.size).filterMap fun k =>
    (forest[k]?.filter fun node => !node.removed).map (f k)).toArray

/-- The nodes that stay, under the nearest ones above them that stay. -/
def pruned (forest : Forest) : Forest :=
  forest.keptWhere fun k node =>
    { node with parent := (forest.nearestKept? forest.wayUp k).map forest.newSlot }

/-! ### New slots -/

/-- The slot of a node is kept if the node is not flagged as removed. -/
theorem keptAt_eq (hnode : forest[k]? = some node) : forest.keptAt k = !node.removed := by
  simp [keptAt, hnode]

/-- The slot of a node that is not flagged as removed is kept. -/
theorem keptAt_of_stays (hnode : forest[k]? = some node) (hremoved : node.removed = false) :
    forest.keptAt k = true := by
  rw [keptAt_eq hnode, hremoved]
  rfl

/-- Nothing is kept outside the array. -/
theorem lt_size_of_keptAt (h : forest.keptAt k = true) : k < forest.size := by
  rcases Nat.lt_or_ge k forest.size with hk | hk
  · exact hk
  · simp [keptAt, Array.getElem?_eq_none hk] at h

/-- In a slot that is kept there is a node, and it is not flagged as removed. -/
theorem exists_node_of_keptAt (h : forest.keptAt k = true) :
    ∃ node, forest[k]? = some node ∧ node.removed = false := by
  have hnode := Array.getElem?_eq_getElem (lt_size_of_keptAt h)
  rw [keptAt_eq hnode] at h
  exact ⟨_, hnode, by simpa using h⟩

/-- Behind a node that stays the count is one more than before it, and behind a
removed node it is the same. -/
theorem newSlot_succ (forest : Forest) (k : NodeId) :
    forest.newSlot (k + 1) = forest.newSlot k + if forest.keptAt k then 1 else 0 := by
  rw [newSlot, List.range_succ, List.countP_append, List.countP_singleton, newSlot]

/-- Nodes that stay keep their order. It is the node before that has to stay: it
is counted for the one behind. -/
theorem newSlot_lt (hk : forest.keptAt k = true) (hkj : k < j) :
    forest.newSlot k < forest.newSlot j := by
  induction j with
  | zero => exact absurd hkj (Nat.not_lt_zero k)
  | succ j ih =>
    rw [newSlot_succ]
    rcases Nat.lt_succ_iff_lt_or_eq.1 hkj with hlt | heq
    · exact Nat.lt_of_lt_of_le (ih hlt) (Nat.le_add_right _ _)
    · rw [← heq, if_pos hk]
      exact Nat.lt_succ_self _

/-- Whether nodes stay or not, the count never gets smaller from slot to
slot. -/
theorem newSlot_mono (forest : Forest) (hkj : k ≤ j) : forest.newSlot k ≤ forest.newSlot j := by
  induction hkj with
  | refl => exact Nat.le_refl _
  | step _ ih =>
    rw [Nat.succ_eq_add_one, newSlot_succ]
    exact Nat.le_add_right_of_le ih

/-- What is moved to a lower slot was in a lower slot before. -/
theorem lt_of_newSlot_lt (h : forest.newSlot k < forest.newSlot j) : k < j := by
  rcases Nat.lt_or_ge k j with hlt | hge
  · exact hlt
  · exact absurd h (Nat.not_lt_of_le (forest.newSlot_mono hge))

/-- No two nodes that stay move to one slot. A removed node shares its count
with the next node that stays, so both have to stay here. -/
theorem newSlot_inj (hk : forest.keptAt k = true) (hj : forest.keptAt j = true)
    (h : forest.newSlot k = forest.newSlot j) : k = j := by
  rcases Nat.lt_trichotomy k j with hlt | heq | hlt
  · exact absurd h (Nat.ne_of_lt (newSlot_lt hk hlt))
  · exact heq
  · exact absurd h.symm (Nat.ne_of_lt (newSlot_lt hj hlt))

/-! ### The array of the nodes that stay -/

/-- What the run over the array has collected when it comes to a slot. -/
private def keptBelow (forest : Forest) (f : NodeId → Node → Node) (count : Nat) : List Node :=
  (List.range count).filterMap fun k =>
    (forest[k]?.filter fun node => !node.removed).map (f k)

/-- One more slot adds its node at the end, if that stays, and otherwise
nothing. -/
private theorem keptBelow_succ (forest : Forest) (f : NodeId → Node → Node) (k : NodeId) :
    forest.keptBelow f (k + 1) = forest.keptBelow f k ++
      ((forest[k]?.filter fun node => !node.removed).map (f k)).toList := by
  rw [keptBelow, List.range_succ, List.filterMap_append, keptBelow]
  cases h : (forest[k]?.filter fun node => !node.removed).map (f k) <;> simp [h]

/-- As many nodes are collected below a slot as are counted there. -/
private theorem length_keptBelow (forest : Forest) (f : NodeId → Node → Node) (count : Nat) :
    (forest.keptBelow f count).length = forest.newSlot count := by
  induction count with
  | zero => rfl
  | succ k ih =>
    rw [keptBelow_succ, List.length_append, ih, newSlot_succ, keptAt]
    congr 1
    cases forest[k]? with
    | none => rfl
    | some node => cases hremoved : node.removed <;> simp [hremoved]

/-- As many nodes are left as stay. -/
@[simp] theorem size_keptWhere (forest : Forest) (f : NodeId → Node → Node) :
    (forest.keptWhere f).size = forest.newSlot forest.size :=
  forest.length_keptBelow f forest.size

/-- A node that stays is found in the slot it moves to. Together with
`Forest.exists_newSlot_eq` this is all there is in the array that is left. -/
theorem getElem?_keptWhere (forest : Forest) (f : NodeId → Node → Node)
    (hnode : forest[k]? = some node) (hkept : node.removed = false) :
    (forest.keptWhere f)[forest.newSlot k]? = some (f k node) := by
  have hlt : k < forest.size := (Array.getElem?_eq_some_iff.1 hnode).1
  -- The list only grows at its end, so what is found in it stays where it is.
  suffices h : ∀ count, k < count →
      (forest.keptBelow f count)[forest.newSlot k]? = some (f k node) by
    simpa [keptWhere, keptBelow] using h forest.size hlt
  intro count hcount
  induction count with
  | zero => exact absurd hcount (Nat.not_lt_zero k)
  | succ j ih =>
    rw [keptBelow_succ]
    rcases Nat.lt_succ_iff_lt_or_eq.1 hcount with hkj | heq
    · rw [List.getElem?_append_left]
      · exact ih hkj
      · rw [length_keptBelow]
        exact newSlot_lt (keptAt_of_stays hnode hkept) hkj
    · subst heq
      rw [List.getElem?_append_right (Nat.le_of_eq (forest.length_keptBelow f k)),
        length_keptBelow, Nat.sub_self, hnode, Option.filter_some_pos (by simp [hkept])]
      rfl

/-- Every slot that is left is the one that some node that stays moves to. The
induction is on how many slots were gone through. -/
theorem exists_newSlot_eq (forest : Forest) (hj : j < forest.newSlot forest.size) :
    ∃ k, forest.keptAt k = true ∧ forest.newSlot k = j := by
  generalize forest.size = count at hj
  induction count with
  | zero => exact absurd hj (Nat.not_lt_zero j)
  | succ k ih =>
    rw [newSlot_succ] at hj
    by_cases hkept : forest.keptAt k = true
    · rw [if_pos hkept] at hj
      rcases Nat.lt_succ_iff_lt_or_eq.1 hj with hlt | heq
      · exact ih hlt
      · exact ⟨k, hkept, heq.symm⟩
    · rw [if_neg hkept] at hj
      exact ih hj

/-- An array of as many nodes as stay that has each of them in the slot it moves
to is the array of these nodes. -/
theorem eq_keptWhere {left : Forest} (hsize : left.size = forest.newSlot forest.size)
    (hleft : ∀ k node, forest[k]? = some node → node.removed = false →
      left[forest.newSlot k]? = some (f k node)) :
    left = forest.keptWhere f := by
  refine Array.ext_getElem? fun j => ?_
  rcases Nat.lt_or_ge j (forest.newSlot forest.size) with hj | hj
  · obtain ⟨k, hk, rfl⟩ := exists_newSlot_eq forest hj
    obtain ⟨node, hnode, hremoved⟩ := exists_node_of_keptAt hk
    rw [hleft k node hnode hremoved, getElem?_keptWhere forest f hnode hremoved]
  · rw [Array.getElem?_eq_none (hsize ▸ hj),
      Array.getElem?_eq_none (forest.size_keptWhere f ▸ hj)]

/-- A change to all nodes that are left can be made to each when it is taken
out. -/
theorem map_keptWhere (forest : Forest) (f : NodeId → Node → Node) (g : Node → Node) :
    (forest.keptWhere f).map g = forest.keptWhere fun k node => g (f k node) := by
  simp [keptWhere, List.map_filterMap, Function.comp_def]

/-- Changes to the nodes that leave the flag alone can be made after the nodes
to stay are taken out. -/
theorem keptWhere_of_map {forest' : Forest} {g : NodeId → Node → Node}
    (hsize : forest'.size = forest.size) (hmap : ∀ k, forest'[k]? = forest[k]?.map (g k))
    (hremoved : ∀ k node, (g k node).removed = node.removed) (f : NodeId → Node → Node) :
    forest'.keptWhere f = forest.keptWhere fun k node => f k (g k node) := by
  rw [keptWhere, keptWhere, hsize]
  congr 1
  refine List.filterMap_congr fun k _ => ?_
  rw [hmap]
  cases forest[k]? with
  | none => rfl
  | some node => cases h : node.removed <;> simp [Option.filter_some, hremoved, h]

/-- Changes that leave the flag for removal alone leave the same slots kept. -/
theorem keptAt_of_map {forest' : Forest} {g : NodeId → Node → Node}
    (hmap : ∀ k, forest'[k]? = forest[k]?.map (g k))
    (hremoved : ∀ k node, (g k node).removed = node.removed) :
    forest'.keptAt = forest.keptAt := by
  funext k
  rw [keptAt, hmap, keptAt]
  cases forest[k]? <;> simp [hremoved]

/-- If the same slots are kept, the nodes move to the same slots. -/
theorem newSlot_of_keptAt {forest' : Forest} (h : forest'.keptAt = forest.keptAt) :
    forest'.newSlot = forest.newSlot := by
  funext k
  rw [newSlot, newSlot, h]

/-- Only what becomes of the nodes that stay matters for the array of these
nodes. -/
theorem keptWhere_congr {g : NodeId → Node → Node}
    (h : ∀ k node, forest[k]? = some node → node.removed = false → f k node = g k node) :
    forest.keptWhere f = forest.keptWhere g := by
  rw [keptWhere, keptWhere]
  congr 1
  refine List.filterMap_congr fun k _ => ?_
  cases hnode : forest[k]? with
  | none => rfl
  | some node =>
    cases hremoved : node.removed
    · simp [Option.filter_some, hremoved, h k node hnode hremoved]
    · simp [Option.filter_some, hremoved]

/-! ### Parents among the nodes that stay -/

section

variable {up : WayUp} {a : NodeId}

/-- The nearest slot above that stays does stay, and is above. -/
theorem nearestKept?_eq_some (h : forest.nearestKept? up k = some a) :
    forest.keptAt a = true ∧ up.Above a k :=
  ⟨List.find?_some h, WayUp.above_of_mem_ascent (List.mem_of_find?_eq_some h)⟩

/-- With nothing above a slot, nothing above it stays. -/
theorem nearestKept?_of_up_none (h : up k = none) : forest.nearestKept? up k = none := by
  rw [nearestKept?, WayUp.ascent_of_up_none h]
  rfl

/-- The nearest slot above that stays is the one directly above or else the
nearest one from there. This needs a way up without cycles, since the slots
above are listed with a bound. -/
theorem nearestKept?_of_up {p : NodeId} (hwithin : up.Within forest.size) (hacyclic : up.Acyclic)
    (h : up k = some p) :
    forest.nearestKept? up k = if forest.keptAt p then some p else forest.nearestKept? up p := by
  rw [nearestKept?, WayUp.ascent_of_up hwithin hacyclic h, List.find?_cons]
  cases forest.keptAt p <;> rfl

/-- The nodes of an array of nodes that stay go under the nearest ones above
them on a way up that stay. -/
def UnderNearest (forest : Forest) (up : WayUp) (f : NodeId → Node → Node) : Prop :=
  ∀ k node, (f k node).parent = (forest.nearestKept? up k).map forest.newSlot

/-- The new parent of a node that stays, looked up in the array that is left. -/
theorem UnderNearest.parent?_newSlot (h : forest.UnderNearest up f) (hk : forest.keptAt k = true) :
    (forest.keptWhere f).parent? (forest.newSlot k) =
      (forest.nearestKept? up k).map forest.newSlot := by
  obtain ⟨node, hnode, hremoved⟩ := exists_node_of_keptAt hk
  rw [parent?_eq (getElem?_keptWhere forest f hnode hremoved), h]

/-- The parents are among the nodes that stay. So a compacted array can be
linked, whatever its parents were before. -/
theorem UnderNearest.closed (h : forest.UnderNearest up f) : (forest.keptWhere f).Closed := by
  intro j p hp
  have hj := lt_size_of_parent hp
  rw [size_keptWhere] at hj ⊢
  obtain ⟨k, hk, rfl⟩ := exists_newSlot_eq forest hj
  rw [h.parent?_newSlot hk] at hp
  obtain ⟨a, ha, rfl⟩ := Option.map_eq_some_iff.1 hp
  have hkept := (nearestKept?_eq_some ha).1
  exact newSlot_lt hkept (lt_size_of_keptAt hkept)

/-- What is above a node among those that stay was above it before. The
induction is on the links of the new way up, each of which is a climb on the old
one. -/
theorem UnderNearest.above (h : forest.UnderNearest up f)
    (habove : (forest.keptWhere f).wayUp.Above j (forest.newSlot k))
    (hk : forest.keptAt k = true) :
    ∃ a, forest.keptAt a = true ∧ forest.newSlot a = j ∧ up.Above a k := by
  -- One link of the new way up is a climb on the old one.
  have hlink : ∀ k i, forest.keptAt k = true →
      (forest.keptWhere f).parent? (forest.newSlot k) = some i →
      ∃ a, forest.keptAt a = true ∧ forest.newSlot a = i ∧ up.Above a k := by
    intro k i hk hi
    rw [h.parent?_newSlot hk] at hi
    obtain ⟨a, ha, rfl⟩ := Option.map_eq_some_iff.1 hi
    obtain ⟨hkept, habove⟩ := nearestKept?_eq_some ha
    exact ⟨a, hkept, rfl, habove⟩
  generalize hx : forest.newSlot k = x at habove
  induction habove using Relation.TransGen.head_induction_on generalizing k with
  | single hj => exact hlink k j hk (hx ▸ hj)
  | head hi _ ih =>
    obtain ⟨b, hb, hslot, hbk⟩ := hlink k _ hk (hx ▸ hi)
    obtain ⟨a, ha, haj, hab⟩ := ih hb hslot
    exact ⟨a, ha, haj, hab.trans hbk⟩

/-- From above a slot that stays, the way up comes to the nearest one above
another slot, or starts there. -/
theorem UnderNearest.exists_nearestKept? (h : forest.UnderNearest up f)
    (hwithin : up.Within forest.size) (hacyclic : up.Acyclic) (ha : forest.keptAt a = true)
    (habove : up.Above a k) :
    ∃ b, forest.nearestKept? up k = some b ∧
      (forest.keptWhere f).wayUp.AtOrAbove (forest.newSlot a) (forest.newSlot b) := by
  refine hacyclic.induction hwithin (motive := fun k => up.Above a k →
    ∃ b, forest.nearestKept? up k = some b ∧
      (forest.keptWhere f).wayUp.AtOrAbove (forest.newSlot a) (forest.newSlot b)) ?_ k habove
  intro k ih habove
  obtain ⟨p, hp, hap⟩ := WayUp.above_iff.1 habove
  have hnearest := nearestKept?_of_up hwithin hacyclic hp
  cases hkept : forest.keptAt p with
  | true =>
    rw [if_pos hkept] at hnearest
    refine ⟨p, hnearest, ?_⟩
    rcases WayUp.atOrAbove_iff.1 hap with rfl | hap
    · exact WayUp.AtOrAbove.refl _
    · -- The new parent of `p` is the nearest slot above it that stays.
      obtain ⟨b, hb, hab⟩ := ih p hp hap
      have hparent := h.parent?_newSlot hkept
      rw [hb] at hparent
      exact ((WayUp.above_iff_of_up hparent).2 hab).atOrAbove
  | false =>
    rw [if_neg (by simp [hkept])] at hnearest
    rcases WayUp.atOrAbove_iff.1 hap with rfl | hap
    · -- The slot itself stays, so it is not the one directly above that does not.
      simp [ha] at hkept
    · rw [hnearest]
      exact ih p hp hap

/-- Among the nodes that stay, the same are above each other as before. No two
of them change places, and none comes under a new one. -/
theorem UnderNearest.above_iff (h : forest.UnderNearest up f)
    (hwithin : up.Within forest.size) (hacyclic : up.Acyclic) (ha : forest.keptAt a = true)
    (hk : forest.keptAt k = true) :
    (forest.keptWhere f).wayUp.Above (forest.newSlot a) (forest.newSlot k) ↔ up.Above a k := by
  constructor
  · intro habove
    obtain ⟨b, hb, hslot, hbk⟩ := h.above habove hk
    rwa [newSlot_inj hb ha hslot] at hbk
  · intro habove
    obtain ⟨b, hb, hab⟩ := h.exists_nearestKept? hwithin hacyclic ha habove
    have hparent := h.parent?_newSlot hk
    rw [hb] at hparent
    exact (WayUp.above_iff_of_up hparent).2 hab

/-- Taking nodes out makes no cycle: one in the array that is left would be one
on the way up before. -/
theorem UnderNearest.acyclic (h : forest.UnderNearest up f) (hacyclic : up.Acyclic) :
    (forest.keptWhere f).wayUp.Acyclic := by
  intro j hj
  have hlt := lt_size_of_above hj
  rw [size_keptWhere] at hlt
  obtain ⟨k, hk, rfl⟩ := exists_newSlot_eq forest hlt
  obtain ⟨a, ha, heq, habove⟩ := h.above hj hk
  rw [newSlot_inj ha hk heq] at habove
  exact hacyclic k habove

/-- What compaction leaves has all its parents in the array. -/
theorem pruned_closed (forest : Forest) : forest.pruned.Closed := by
  have hunder : forest.UnderNearest forest.wayUp fun k node =>
      { node with parent := (forest.nearestKept? forest.wayUp k).map forest.newSlot } :=
    fun _ _ => rfl
  exact hunder.closed

end

/-! ### One run over the array -/

/-- The run has found the new slots of the nodes below some slot, and counted
those that stay. -/
structure NewSlotsFound (forest : Forest) (count : Nat) (found : Array (Option NodeId) × Nat) :
    Prop where
  size_eq : found.1.size = count
  kept_eq : found.2 = forest.newSlot count
  slots_eq : ∀ k < count,
    found.1[k]? = some (if forest.keptAt k then some (forest.newSlot k) else none)

/-- The run takes in one more node: the slot that the count has come to if it
stays, and no slot if it is removed. -/
theorem NewSlotsFound.push {slots : Array (Option NodeId)} {kept : Nat}
    (h : forest.NewSlotsFound k (slots, kept)) (hnode : forest[k]? = some node) :
    forest.NewSlotsFound (k + 1)
      (if node.removed then (slots.push none, kept) else (slots.push (some kept), kept + 1)) := by
  obtain ⟨hsize, hkept, hslots⟩ := h
  simp only at hsize hkept hslots
  have hkeptAt := keptAt_eq hnode
  -- Only the last entry is new, so the others need no second look.
  have hpush : ∀ slot, slot = (if forest.keptAt k then some (forest.newSlot k) else none) →
      ∀ j < k + 1, (slots.push slot)[j]? =
        some (if forest.keptAt j then some (forest.newSlot j) else none) := by
    intro slot hslot j hj
    rw [Array.getElem?_push, hsize]
    by_cases heq : j = k
    · rw [if_pos heq, hslot, heq]
    · rw [if_neg heq]
      exact hslots j (Nat.lt_of_le_of_ne (Nat.le_of_lt_succ hj) heq)
  have hcount := forest.newSlot_succ k
  cases hremoved : node.removed
  · have hkeep : forest.keptAt k = true := by rw [hkeptAt, hremoved]; rfl
    rw [if_pos hkeep, ← hkept] at hcount
    exact ⟨by simp [hsize], hcount.symm, hpush (some kept) (by simp [hkeep, hkept])⟩
  · have hgo : forest.keptAt k = false := by rw [hkeptAt, hremoved]; rfl
    rw [if_neg (by simp [hgo]), ← hkept] at hcount
    exact ⟨by simp [hsize], hcount.symm, hpush none (by simp [hgo])⟩

/-- The new slots that the run finds are those said to be. What a run counts on
its way is thus stated once for each slot, without the run. -/
theorem getElem?_newSlots (forest : Forest) (hk : k < forest.size) :
    forest.newSlots[k]? = some (if forest.keptAt k then some (forest.newSlot k) else none) := by
  have hstart : forest.NewSlotsFound 0 (#[], 0) :=
    ⟨rfl, rfl, fun k hk => absurd hk (Nat.not_lt_zero k)⟩
  refine (Array.foldl_induction (forest.NewSlotsFound ·) hstart ?_).slots_eq k hk
  intro i found h
  exact h.push (Array.getElem?_eq_getElem i.2)

/-- An array is what is found in its slots, in order. -/
private theorem toList_eq_filterMap (forest : Forest) :
    forest.toList = (List.range forest.size).filterMap (forest[·]?) := by
  suffices h : ∀ count, (List.range count).filterMap (forest[·]?) = forest.toList.take count by
    rw [h, ← Array.length_toList, List.take_length]
  intro count
  induction count with
  | zero => rfl
  | succ k ih =>
    rw [List.range_succ, List.filterMap_append, ih, List.take_add_one, Array.getElem?_toList]
    cases h : forest[k]? <;> simp [h]

/-- Nodes that stay and are all changed the same way are the ones that a filter
leaves, changed. -/
theorem keptWhere_eq_map_filter (forest : Forest) (g : Node → Node) :
    forest.keptWhere (fun _ => g) = (forest.filter fun node => !node.removed).map g := by
  rw [keptWhere, ← Array.toList_inj, Array.toList_map, Array.toList_filter,
    toList_eq_filterMap forest, List.filter_filterMap, List.map_filterMap]

/-- The run that drops the removed nodes leaves those that stay, with their
parents renumbered. A parent has to stay, since the number of a removed one is
not that of any node left. -/
theorem dropRemoved_eq (hparents : ∀ k p, forest.keptAt k = true → forest.parent? k = some p →
      forest.keptAt p = true) :
    forest.dropRemoved =
      forest.keptWhere fun _ node => { node with parent := node.parent.map forest.newSlot } := by
  have hslot : ∀ (k : NodeId) (node : Node), forest[k]? = some node → node.removed = false →
      (node.parent.bind fun p => forest.newSlots[p]?.join) = node.parent.map forest.newSlot := by
    intro k node hnode hremoved
    cases hp : node.parent with
    | none => rfl
    | some p =>
      have hkept := hparents k p (keptAt_of_stays hnode hremoved)
        (by simp [parent?, hnode, hp])
      simp [getElem?_newSlots forest (lt_size_of_keptAt hkept), hkept]
  rw [dropRemoved, keptWhere, ← Array.toList_inj, Array.toList_filterMap, toList_eq_filterMap,
    List.filterMap_filterMap]
  refine List.filterMap_congr fun k _ => ?_
  cases hnode : forest[k]? with
  | none => rfl
  | some node =>
    cases hremoved : node.removed
    · simp [Option.filter_some, hremoved, hslot k node hnode hremoved]
    · simp [Option.filter_some, hremoved]

end ParseForest.Forest
