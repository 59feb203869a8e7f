import ParseForest.Proofs.Compaction
import ParseForest.Proofs.Links.InOrder

/-!
# `ParseForest.Proofs.Compaction.InPlace`: compaction without a second array

`Forest.compact` renumbers the parents of the nodes that stay while it puts
these into a new array. The array that is there already will do as well.
`Forest.compactInPlace` goes through it once more: a node that stays is
renumbered where it is and then changes places with whatever is in the next slot
at the front, and the number of such nodes is counted. What is behind that many
slots in the end is of no further use. No node is copied, and no room is asked
for.

At any time the array has three parts (`Gathered`): the nodes that were moved,
the removed nodes met so far in an order that the moves have changed, and the
nodes still to come, which are as they were. A removed node joins the second
part (`Gathered.leave`). A node that stays changes places with the first node of
the second part, if there is one, so it comes to the end of the first part
(`Gathered.move`).

`Forest.compactInPlace_cases` says that both ways of compacting give up for the
same faults, that they find the same nodes, and that behind these nodes are the
removed ones, each as it was.
-/

set_option autoImplicit false

namespace ParseForest

/-- The nodes while those that stay are moved to the front of the array. -/
structure Gathering where
  forest : Forest
  /-- How many nodes were moved, and so the slot for the next one. -/
  front : Nat
deriving DecidableEq, Repr

/-- A node whose parent has moved. A parent that moves nowhere is forgotten. -/
def Node.renumbered (slots : Array (Option NodeId)) (node : Node) : Node :=
  { node with parent := node.parent.bind fun parent => slots[parent]?.join }

/-- A node that stays, without its parent, and a removed node as it is. This is
what looking for nearest kept ancestors leaves alone. -/
def Node.detached (node : Node) : Node :=
  if node.removed then node else node.orphan

/-- Two nodes change places. A slot that is not in the array is a fault. -/
def Forest.exchange (forest : Forest) (i j : NodeId) : Except Fault Forest := do
  let _ ← forest.fetch i
  let _ ← forest.fetch j
  return forest.swapIfInBounds i j

/-- Goes through one more slot. A node that stays is moved, and a removed one is
left where it is. -/
def Gathering.gather (slots : Array (Option NodeId)) (gathering : Gathering) (id : NodeId) :
    Except Fault Gathering := do
  let node ← gathering.forest.fetch id
  if node.removed then
    return gathering
  else
    let renumbered ← gathering.forest.change id (Node.renumbered slots)
    let moved ← renumbered.exchange gathering.front id
    return ⟨moved, gathering.front + 1⟩

/-- Moves the nodes that stay to the front of the array, under the nodes above
them that stay. -/
def Forest.compactInPlace (forest : Forest) : Except Fault Gathering := do
  -- The new slots are counted before any parent is changed.
  let slots := forest.newSlots
  let resolution ← Resolution.resolved forest forest.size
  (List.range forest.size).foldlM (Gathering.gather slots) ⟨resolution.forest, 0⟩

variable {forest : Forest} {slots : Array (Option NodeId)} {before gone rest : List Node}
  {node : Node} {id : NodeId}

/-! ### One slot -/

/-- The node behind some others is found in the slot that counts them. -/
theorem Forest.fetch_middle (before rest : List Node) (node : Node) :
    Forest.fetch (before ++ node :: rest).toArray before.length = .ok node := by
  refine Forest.fetch_eq_ok ?_
  rw [List.getElem?_toArray, List.getElem?_append_right (Nat.le_refl _), Nat.sub_self]
  rfl

/-- A node that comes behind some removed ones changes places with the first of
these: they stay together, in another order. Where there are none, the node
stays where it is. -/
theorem Forest.exists_exchange_eq (before gone rest : List Node) (node : Node) :
    ∃ gone' : List Node, gone'.Perm gone ∧
      Forest.exchange (before ++ gone ++ node :: rest).toArray before.length
          (before ++ gone).length =
        .ok (before ++ [node] ++ gone' ++ rest).toArray := by
  cases gone with
  | nil =>
    -- The node changes places with itself.
    refine ⟨[], .nil, ?_⟩
    rw [List.append_nil, exchange, Forest.fetch_middle]
    simp [Array.swapIfInBounds, Array.swap]
  | cons first gone =>
    -- The first of the removed nodes goes behind the others.
    refine ⟨gone ++ [first], List.perm_append_comm, ?_⟩
    have hfirst := Forest.fetch_middle before (gone ++ node :: rest) first
    rw [← List.cons_append, ← List.append_assoc] at hfirst
    rw [exchange, hfirst, Forest.fetch_middle]
    simp [Array.swapIfInBounds, Array.swap]

/-- A node in the middle of an array is changed where it is, and those before
and behind it are not. -/
theorem Forest.change_middle (before rest : List Node) (node : Node) (f : Node → Node) :
    Forest.change (before ++ node :: rest).toArray before.length f =
      .ok (before ++ f node :: rest).toArray := by
  rw [change, Forest.fetch_middle, except_ok_bind]
  refine congrArg Except.ok (Array.ext_getElem? fun k => ?_)
  rw [Array.getElem?_modify, List.getElem?_toArray, List.getElem?_toArray, List.getElem?_append,
    List.getElem?_append]
  by_cases hk : before.length = k
  · simp [← hk]
  · rw [if_neg hk]
    by_cases hlt : k < before.length
    · rw [if_pos hlt, if_pos hlt]
    · obtain ⟨n, hn⟩ := Nat.exists_eq_succ_of_ne_zero (n := k - before.length) (by omega)
      rw [if_neg hlt, if_neg hlt, hn]
      rfl

namespace Gathering

/-- The nodes of an array that stay, each with its parent renumbered. -/
def moved (slots : Array (Option NodeId)) (nodes : List Node) : List Node :=
  (nodes.filter fun node => !node.removed).map (Node.renumbered slots)

/-- The slots below `count` were gone through: the nodes there that stay are in
front, the removed ones behind them, and the others where they were. -/
structure Gathered (forest : Forest) (slots : Array (Option NodeId)) (count : Nat)
    (gathering : Gathering) : Prop where
  front_eq : gathering.front = (moved slots (forest.toList.take count)).length
  /-- The removed nodes are all there, in an order that the moves have
  changed. -/
  forest_eq : ∃ gone : List Node, gone.Perm ((forest.toList.take count).filter Node.removed) ∧
    gathering.forest =
      (moved slots (forest.toList.take count) ++ gone ++ forest.toList.drop count).toArray

/-- Before the first slot nothing was moved, and nothing was left behind. -/
theorem gathered_zero (forest : Forest) (slots : Array (Option NodeId)) :
    Gathered forest slots 0 ⟨forest, 0⟩ where
  front_eq := rfl
  forest_eq := ⟨[], .nil, by simp [moved]⟩

/-- The nodes that stay and the removed ones are all there are. So the slot that
comes now is the one right behind both. -/
theorem length_moved_add {nodes : List Node} (hgone : gone.Perm (nodes.filter Node.removed)) :
    (moved slots nodes ++ gone).length = nodes.length := by
  rw [List.length_append, hgone.length_eq, moved, List.length_map, Nat.add_comm]
  exact (List.length_eq_length_filter_add Node.removed).symm

/-- With one more slot gone through, its node is the last of those behind. -/
theorem take_succ_eq (hnode : forest[id]? = some node) :
    forest.toList.take (id + 1) = forest.toList.take id ++ [node] := by
  rw [List.take_add_one, Array.getElem?_toList, hnode]
  rfl

/-- The nodes that are still to come start with that of the slot that comes
now. -/
theorem drop_eq_cons (hnode : forest[id]? = some node) :
    forest.toList.drop id = node :: forest.toList.drop (id + 1) := by
  obtain ⟨hid, rfl⟩ := Array.getElem?_eq_some_iff.1 hnode
  rw [← Array.getElem_toList hid]
  exact List.drop_eq_getElem_cons _

namespace Gathered

variable {gathering : Gathering}

/-- The slot that comes now is right behind the removed nodes, and its node is
as it was. -/
theorem exists_gone (h : Gathered forest slots id gathering) (hnode : forest[id]? = some node) :
    ∃ gone : List Node, gone.Perm ((forest.toList.take id).filter Node.removed) ∧
      (moved slots (forest.toList.take id) ++ gone).length = id ∧
      gathering.forest =
        (moved slots (forest.toList.take id) ++ gone ++
          node :: forest.toList.drop (id + 1)).toArray := by
  obtain ⟨gone, hgone, hforest⟩ := h.forest_eq
  have hid : id ≤ forest.toList.length := by
    rw [Array.length_toList]
    exact Nat.le_of_lt (Array.getElem?_eq_some_iff.1 hnode).1
  refine ⟨gone, hgone, ?_, ?_⟩
  · rw [length_moved_add hgone, List.length_take, Nat.min_eq_left hid]
  · rw [hforest, drop_eq_cons hnode]

/-- So it is the node that is fetched. -/
theorem fetch_eq (h : Gathered forest slots id gathering) (hnode : forest[id]? = some node) :
    gathering.forest.fetch id = .ok node := by
  obtain ⟨gone, -, hlength, hforest⟩ := h.exists_gone hnode
  have hfetch := Forest.fetch_middle (moved slots (forest.toList.take id) ++ gone)
    (forest.toList.drop (id + 1)) node
  rw [hlength] at hfetch
  rw [hforest, hfetch]

/-- A removed node is left where it is, and is the last of the removed ones from
now on. -/
theorem leave (h : Gathered forest slots id gathering) (hnode : forest[id]? = some node)
    (hremoved : node.removed = true) : Gathered forest slots (id + 1) gathering := by
  obtain ⟨gone, hgone, -, hforest⟩ := h.exists_gone hnode
  have hmoved : moved slots (forest.toList.take (id + 1)) =
      moved slots (forest.toList.take id) := by
    simp [take_succ_eq hnode, moved, hremoved]
  constructor
  case front_eq => rw [hmoved, h.front_eq]
  case forest_eq =>
    refine ⟨gone ++ [node], ?_, ?_⟩
    · rw [take_succ_eq hnode, List.filter_append]
      simpa [hremoved] using hgone.append_right [node]
    · rw [hmoved, hforest]
      simp

/-- A node that stays changes places with the first of the removed ones, and is
the last of the nodes in front from now on. -/
theorem move (h : Gathered forest slots id gathering) (hnode : forest[id]? = some node)
    (hkept : node.removed = false) :
    ∃ renumbered last,
      gathering.forest.change id (Node.renumbered slots) = .ok renumbered ∧
        renumbered.exchange gathering.front id = .ok last ∧
        Gathered forest slots (id + 1) ⟨last, gathering.front + 1⟩ := by
  obtain ⟨gone, hgone, hlength, hforest⟩ := h.exists_gone hnode
  have hchange := Forest.change_middle (moved slots (forest.toList.take id) ++ gone)
    (forest.toList.drop (id + 1)) node (Node.renumbered slots)
  rw [hlength, ← hforest] at hchange
  obtain ⟨gone', hperm, hexchange⟩ := Forest.exists_exchange_eq
    (moved slots (forest.toList.take id)) gone (forest.toList.drop (id + 1))
    (node.renumbered slots)
  rw [hlength, ← h.front_eq] at hexchange
  have hmoved : moved slots (forest.toList.take (id + 1)) =
      moved slots (forest.toList.take id) ++ [node.renumbered slots] := by
    simp [take_succ_eq hnode, moved, hkept]
  refine ⟨_, _, hchange, hexchange, ?_⟩
  constructor
  case front_eq =>
    rw [hmoved, List.length_append, h.front_eq]
    rfl
  case forest_eq =>
    refine ⟨gone', ?_, ?_⟩
    · rw [take_succ_eq hnode, List.filter_append]
      simpa [hkept] using hperm.trans hgone
    · rw [hmoved]

/-- One more slot is gone through, and that does not fail. -/
theorem gather (h : Gathered forest slots id gathering) (hid : id < forest.size) :
    ∃ gathering', gathering.gather slots id = .ok gathering' ∧
      Gathered forest slots (id + 1) gathering' := by
  have hnode := Array.getElem?_eq_getElem hid
  rw [Gathering.gather, h.fetch_eq hnode, except_ok_bind]
  cases hremoved : forest[id].removed with
  | true => exact ⟨gathering, rfl, h.leave hnode hremoved⟩
  | false =>
    obtain ⟨renumbered, last, hchange, hexchange, hgathered⟩ := h.move hnode hremoved
    refine ⟨⟨last, gathering.front + 1⟩, ?_, hgathered⟩
    simp only [Bool.false_eq_true, if_false, hchange, except_ok_bind, hexchange]
    rfl

end Gathered

/-- All slots are gone through. The nodes that stay are those that
`Forest.dropRemoved` leaves, by induction on how many were gone through. -/
theorem exists_gathered (forest : Forest) (slots : Array (Option NodeId)) :
    ∃ gone : List Node, gone.Perm (forest.toList.filter Node.removed) ∧
      (List.range forest.size).foldlM (Gathering.gather slots) ⟨forest, 0⟩ =
        .ok ⟨(moved slots forest.toList ++ gone).toArray, (moved slots forest.toList).length⟩ := by
  rcases foldlM_range_cases (Gathering.gather slots) ⟨forest, 0⟩ forest.size
    (Gathered forest slots) (fun _ => False) (gathered_zero forest slots)
    (fun id gathering hid h => Or.inl (h.gather hid)) with ⟨⟨current, front⟩, hrun, h⟩ | ⟨_, _, h⟩
  · -- No slot is still to come, so the array has two parts.
    obtain ⟨hfront, gone, hgone, hforest⟩ := h
    simp only [← Array.length_toList, List.take_length, List.drop_length, List.append_nil]
      at hfront hgone hforest
    exact ⟨gone, hgone, by rw [hrun, hfront, hforest]⟩
  · exact h.elim

end Gathering

/-! ### Before the nodes are moved -/

/-- Without its parent a node is flagged as it was. -/
@[simp] theorem Node.removed_detached (node : Node) : node.detached.removed = node.removed := by
  unfold Node.detached
  split <;> rfl

namespace Resolution

/-- Dealing with a slot changes no more than the parent of a node that stays.
This holds of every array, also where a climb comes to a parent that is not in
it. -/
theorem map_detached_resolve {resolution resolution' : Resolution}
    (h : resolution.resolve id = .ok resolution') :
    resolution'.forest.map Node.detached = resolution.forest.map Node.detached := by
  rw [resolve] at h
  cases hnode : resolution.forest[id]? with
  | none => simp [Forest.fetch, hnode] at h
  | some node =>
    rw [Forest.fetch_eq_ok hnode, except_ok_bind] at h
    obtain ⟨⟨ancestor, path⟩, -, h⟩ := exists_of_bind_eq_ok h
    dsimp only at h
    rw [← Array.foldl_toList] at h
    have hforest := forest_noteAll resolution ancestor path.toList
    cases hremoved : node.removed with
    | true =>
      simp only [hremoved, if_true] at h
      cases h
      -- A removed node is noted, and no node has changed.
      rw [note, hforest]
    | false =>
      simp only [hremoved, Bool.false_eq_true, if_false] at h
      cases h
      -- A node that stays has another parent, which is not looked at.
      simp only [hforest]
      refine Array.ext_getElem? fun k => ?_
      rw [Array.getElem?_map, Array.getElem?_map, Array.getElem?_modify]
      by_cases hk : id = k
      · subst hk
        simp [hnode, Node.detached, Node.orphan, hremoved]
      · rw [if_neg hk]

/-- So does looking for all nearest kept ancestors, by induction on the
slots. -/
theorem map_detached_resolved {resolution : Resolution} {count : Nat}
    (h : resolved forest count = .ok resolution) :
    resolution.forest.map Node.detached = forest.map Node.detached := by
  have hends : EndsIn (fun current => current.forest.map Node.detached = forest.map Node.detached)
      (fun _ => True) (resolved forest count) := by
    refine EndsIn.foldlM rfl fun id _ current hsame => ?_
    cases hresolve : current.resolve id with
    | ok current' => exact .ok ((map_detached_resolve hresolve).trans hsame)
    | error fault => exact .error trivial
  rw [h] at hends
  exact hends.of_ok

end Resolution

namespace Forest

/-- Which nodes stay is all that the new slots depend on. So they may be counted
before the parents are changed or after. -/
theorem newSlots_map_detached (forest : Forest) :
    newSlots (forest.map Node.detached) = forest.newSlots := by
  rw [newSlots, Array.foldl_map, newSlots]
  simp only [Node.removed_detached]

/-- The removed nodes are what they were. -/
theorem filter_removed_map_detached (forest : Forest) :
    (forest.map Node.detached).toList.filter Node.removed = forest.toList.filter Node.removed := by
  have hself : ∀ node ∈ forest.toList.filter Node.removed, node.detached = node := by
    intro node hnode
    rw [Node.detached, if_pos (List.mem_filter.1 hnode).2]
  have hflag : Node.removed ∘ Node.detached = Node.removed :=
    funext Node.removed_detached
  rw [Array.toList_map, List.filter_map, hflag, List.map_congr_left hself, List.map_id']

/-- What `Forest.dropRemoved` leaves is what is to be moved to the front. -/
theorem toList_dropRemoved (forest : Forest) :
    forest.dropRemoved.toList = Gathering.moved forest.newSlots forest.toList := by
  rw [dropRemoved, Array.toList_filterMap, Gathering.moved, ← List.filterMap_eq_filter,
    List.map_filterMap]
  refine List.filterMap_congr fun node _ => ?_
  cases hremoved : node.removed <;> simp [Option.guard, hremoved, Node.renumbered]

/-! ### Both ways -/

/-- Compaction in place gives up where `Forest.compact` does, and for the same
fault. Where it comes to an end,

* the count is the number of nodes that stay, and that many slots hold what
  `Forest.compact` leaves;
* the slots behind them hold the removed nodes, each as it was before, in some
  order. -/
theorem compactInPlace_cases (forest : Forest) :
    (∃ fault, forest.compact = .error fault ∧ forest.compactInPlace = .error fault) ∨
      ∃ kept gone : Forest, forest.compact = .ok kept ∧
        forest.compactInPlace = .ok ⟨kept ++ gone, kept.size⟩ ∧
        gone.toList.Perm (forest.toList.filter Node.removed) := by
  rw [compact, compactInPlace]
  cases hresolved : Resolution.resolved forest forest.size with
  | error fault => exact Or.inl ⟨fault, rfl, rfl⟩
  | ok resolution =>
    -- The second run starts from an array with the same flags and the same removed nodes.
    have hsame := Resolution.map_detached_resolved hresolved
    have hsize : resolution.forest.size = forest.size := by
      rw [← Array.size_map (f := Node.detached), hsame, Array.size_map]
    have hslots : resolution.forest.newSlots = forest.newSlots := by
      rw [← newSlots_map_detached, hsame, newSlots_map_detached]
    have hremoved : resolution.forest.toList.filter Node.removed =
        forest.toList.filter Node.removed := by
      rw [← filter_removed_map_detached, hsame, filter_removed_map_detached]
    obtain ⟨gone, hgone, hrun⟩ := Gathering.exists_gathered resolution.forest forest.newSlots
    rw [hremoved] at hgone
    rw [hsize, ← hslots, ← toList_dropRemoved, Array.length_toList] at hrun
    refine Or.inr ⟨resolution.forest.dropRemoved, gone.toArray, rfl, ?_, hgone⟩
    rw [except_ok_bind, ← hslots, hrun]
    simp

end Forest

end ParseForest
