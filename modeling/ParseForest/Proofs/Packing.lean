import ParseForest.Packing
import ParseForest.Proofs.Adoption
import ParseForest.Proofs.Compaction
import ParseForest.Proofs.Validity
import ParseForest.Proofs.Walk.Linked

/-!
# `ParseForest.Proofs.Packing`: what packing makes of an array

`Forest.packed` is the tree that packing is to return, read off the array as the
matcher left it, with no pass: the nodes that stay, in order, each under the
first one that stays on the way up of the adopted parents, with the span that
adoption gives it and the links that the parents imply.

`Forest.pack_cases` puts the passes together. An array that is accepted is a
tree; adoption makes no cycle (`Forest.adoptedParent_acyclic`), so every climb
of the compaction ends, and the parents of the nodes that are left are in the
array when they are linked.

From there, `Forest.pack_eq_packed` says what packing returns,
`Forest.pack_outcomes` when it does so and what it does otherwise, and
`Forest.pack_walkAll_perm` that walks come to all nodes of it.
-/

set_option autoImplicit false

namespace ParseForest

namespace Forest

variable {forest : Forest} {top : Nat}

/-- The node of a slot with the parent, the offset and the length it is to have
when it is packed. -/
def packedNode (forest : Forest) (k : NodeId) (node : Node) : Node :=
  let adopted :=
    if node.parent.any forest.walked then forest.adoptAmong (forest.family node.parent) k node
    else node
  { adopted with
    parent :=
      (forest.nearestKept? (forest.adoptedParent forest.walked) k).map forest.newSlot }

/-- The packed tree: the nodes that stay, in order, with the links that the
parents imply. -/
def packed (forest : Forest) : Forest := (forest.keptWhere forest.packedNode).familyLinked

/-- The slots of an array that the matcher used. -/
def used (forest : Forest) (top : Nat) : Forest := forest.take top

/-! ### The passes put together -/

/-- The parent of a packed node is the nearest one that stays, up from its slot
over the adopted parents. -/
theorem underNearest_packedNode (forest : Forest) :
    forest.UnderNearest (forest.adoptedParent forest.walked) forest.packedNode :=
  fun _ _ => rfl

/-- Compaction after adoption leaves the packed tree, but for the links.
Adoption removes no node, and the way up after it is that of the adopted
parents. -/
theorem pruned_adoptedWhere (forest : Forest) :
    (forest.adoptedWhere forest.walked).pruned.map Node.unlinked =
      (forest.keptWhere forest.packedNode).map Node.unlinked := by
  have hnode := forest.getElem?_adoptedWhere forest.walked
  have hkeptAt := keptAt_of_map hnode (forest.adoptedNode_removed forest.walked)
  -- Adoption removes no node, and the way up after it is that of the adopted parents.
  have hnearest : ∀ k, (forest.adoptedWhere forest.walked).nearestKept?
      (forest.adoptedWhere forest.walked).wayUp k =
        forest.nearestKept? (forest.adoptedParent forest.walked) k := by
    intro k
    rw [nearestKept?, nearestKept?, hkeptAt, size_adoptedWhere, wayUp_adoptedWhere]
  rw [pruned, keptWhere_of_map (size_adoptedWhere _ _) hnode (forest.adoptedNode_removed _),
    newSlot_of_keptAt hkeptAt, map_keptWhere, map_keptWhere]
  refine keptWhere_congr fun k node _ _ => ?_
  simp only [hnearest]
  rfl

/-- After adoption a tree can be compacted and linked, and the packed tree comes
of it. Adoption makes no cycle, so every climb ends. -/
theorem compact_relink_adoptedWhere (h : forest.IsTree) :
    ∃ kept, (forest.adoptedWhere forest.walked).compact = .ok kept ∧
      kept.relink = .ok forest.packed := by
  have hclosed : (forest.adoptedWhere forest.walked).Closed := by
    intro k p hp
    rw [parent?_adoptedWhere] at hp
    rw [size_adoptedWhere]
    exact adoptedParent_lt h.closed hp
  have hacyclic : (forest.adoptedWhere forest.walked).wayUp.Acyclic := by
    rw [wayUp_adoptedWhere]
    exact adoptedParent_acyclic h.acyclic forest.walked
  refine ⟨_, compact_eq (exists_climb hclosed hacyclic), ?_⟩
  rw [relink_eq (pruned_closed _), packed, familyLinked_congr forest.pruned_adoptedWhere]

/-- If fewer slots exist than are said to be used, nothing else is looked at. -/
theorem pack_of_lt (h : forest.size < top) :
    forest.pack top = .ok ⟨.error (.topBeyondArray top forest.size), #[]⟩ := by
  rw [pack, if_pos h]
  rfl

/-- An array is checked before any pass, and what is amiss with it is passed
on. -/
theorem pack_of_rejected (h : top ≤ forest.size) {rejection : Rejection}
    (hrejected : (forest.used top).inspect.answer = .error rejection) :
    forest.pack top = .ok ⟨.error rejection, (forest.used top).inspect.events⟩ := by
  have hinspect : inspect (forest.take top) =
      ⟨.error rejection, (forest.used top).inspect.events⟩ := by
    rw [← hrejected]
    rfl
  rw [pack, if_neg (Nat.not_lt_of_le h)]
  simp only [hinspect]
  rfl

/-- An array that is accepted goes through the three passes, and a fault of any
of them is the answer. -/
theorem pack_of_accepted (h : top ≤ forest.size)
    (haccepted : (forest.used top).inspect.answer = .ok ()) :
    forest.pack top = do
      let adopted ← (forest.used top).adoptRuns
      let kept ← adopted.answer.compact
      let linked ← kept.relink
      return ⟨.ok linked,
        (forest.used top).inspect.events ++ adopted.events.push (.packed top kept.size)⟩ := by
  have hinspect : inspect (forest.take top) =
      ⟨.ok (), (forest.used top).inspect.events⟩ := by
    rw [← haccepted]
    rfl
  rw [pack, if_neg (Nat.not_lt_of_le h)]
  simp only [hinspect]
  rfl

/-- Of an array that is accepted comes the packed tree, or the children that do
not collect of a walked slot are too long together. Adoption alone can fail
here; what it leaves can be compacted and linked. -/
theorem pack_cases (htop : top ≤ forest.size)
    (haccepted : (forest.used top).inspect.answer = .ok ()) :
    ((∃ events, forest.pack top = .ok ⟨.ok (forest.used top).packed, events⟩) ∧
        (forest.used top).SumsFit) ∨
      (forest.pack top = .error .sizeOverflow ∧ ¬ (forest.used top).SumsFit) := by
  have htree := (check_eq_ok_iff.1 ((forest.used top).inspect_answer ▸ haccepted)).1
  rw [pack_of_accepted htop haccepted]
  rcases adoptRuns_cases htree with ⟨visited, -, -, hfits, hadopted⟩ | ⟨hadopted, hlong⟩
  · obtain ⟨kept, hcompact, hrelink⟩ := compact_relink_adoptedWhere htree
    simp only [hadopted, except_ok_bind, hcompact, hrelink]
    exact Or.inl ⟨⟨_, rfl⟩, hfits⟩
  · rw [hadopted]
    exact Or.inr ⟨rfl, hlong⟩

/-- What can be packed is what the check accepts and no sum of lengths is too
long for, and the packed tree comes of it. -/
theorem pack_eq_ok_iff {out : Forest} :
    (∃ events, forest.pack top = .ok ⟨.ok out, events⟩) ↔
      top ≤ forest.size ∧ (forest.used top).check = .ok () ∧ (forest.used top).SumsFit ∧
        out = (forest.used top).packed := by
  rw [← inspect_answer]
  rcases Nat.lt_or_ge forest.size top with hlt | hle
  · simp [pack_of_lt hlt, Nat.not_le_of_lt hlt]
  · cases hanswer : (forest.used top).inspect.answer with
    | error rejection => simp [pack_of_rejected hle hanswer]
    | ok _ =>
      rcases pack_cases hle hanswer with ⟨⟨events, hpack⟩, hfits⟩ | ⟨hpack, hlong⟩
      · simp [hpack, hle, hfits, eq_comm]
      · simp [hpack, hlong]

/-- What is packed is the packed tree of a tree. Everything that is proved of
trees holds of it from here on. -/
theorem pack_eq_ok {out : Forest} {events : Array Event}
    (h : forest.pack top = .ok ⟨.ok out, events⟩) :
    (forest.used top).IsTree ∧ out = (forest.used top).packed := by
  obtain ⟨-, hcheck, -, hout⟩ := pack_eq_ok_iff.1 ⟨events, h⟩
  exact ⟨(check_eq_ok_iff.1 hcheck).1, hout⟩

/-- If all slots are used, the slots used are all of the array. -/
theorem used_size (forest : Forest) : forest.used forest.size = forest := by
  simp [used]

/-! ### The packed tree -/

/-- The way up in the packed tree is the one before the links were set. -/
theorem wayUp_packed (forest : Forest) :
    forest.packed.wayUp = (forest.keptWhere forest.packedNode).wayUp :=
  funext (parent?_familyLinked _)

/-- Every slot of the packed tree is the one that some node that stays moves
to. -/
theorem exists_newSlot_of_lt_packed {j : NodeId} (hj : j < forest.packed.size) :
    ∃ k, forest.keptAt k = true ∧ forest.newSlot k = j := by
  rw [packed, size_familyLinked, size_keptWhere] at hj
  exact exists_newSlot_eq forest hj

/-- The node that a node that stays is packed as. -/
theorem getElem?_packed {k : NodeId} {node : Node} (hnode : forest[k]? = some node)
    (hkept : node.removed = false) :
    forest.packed[forest.newSlot k]? = some { forest.packedNode k node with
      child := (forest.keptWhere forest.packedNode).firstChild? (forest.newSlot k)
      next := (forest.keptWhere forest.packedNode).nextSibling? (forest.newSlot k) } := by
  rw [packed, getElem?_familyLinked, getElem?_keptWhere forest _ hnode hkept]
  rfl

/-- The parent of a packed node, by the slots that both had in the array. -/
theorem parent?_packed {k : NodeId} (hk : forest.keptAt k = true) :
    forest.packed.parent? (forest.newSlot k) =
      (forest.nearestKept? (forest.adoptedParent forest.walked) k).map forest.newSlot := by
  rw [packed, parent?_familyLinked, forest.underNearest_packedNode.parent?_newSlot hk]

/-- Packing returns the packed tree of the slots used, whenever it accepts them
and no sum of lengths leaves 64 bits. No other fault is left out here, since
there is none. -/
theorem pack_eq_packed (forest : Forest) (top : Nat) (htop : top ≤ forest.size)
    (haccepted : (forest.used top).inspect.answer = .ok ())
    (hfits : forest.pack top ≠ .error .sizeOverflow) :
    ∃ events, forest.pack top = .ok ⟨.ok (forest.used top).packed, events⟩ := by
  rcases pack_cases htop haccepted with ⟨hpack, -⟩ | ⟨hpack, -⟩
  · exact hpack
  · exact absurd hpack hfits

/-- A removed root, two collecting nodes, a removed node that comes after its
child, and a slot that is not used. -/
def crossed : Forest := #[
  { Node.fresh "root" none 0 with length := 9, removed := true },
  { Node.fresh "late" (some 4) 1 with length := 2 },
  { Node.fresh "plain" (some 0) 3 with length := 3 },
  { Node.fresh "inner" (some 0) 0 with collects := true },
  { Node.fresh "gone" (some 0) 6 with length := 1, removed := true },
  { Node.fresh "outer" (some 0) 0 with collects := true },
  { Node.fresh "rest" (some 9) 0 with collects := true }]

example : (crossed.used 6).packed.map (fun node => (node.name, node.parent)) =
    #[("late", some 3), ("plain", some 2), ("inner", some 3), ("outer", none)] := by
  decide +kernel

/-- The hypotheses hold of the first six slots of `crossed`. The last slot would
not be accepted, but it is not used. -/
theorem pack_eq_packed_crossed :
    6 ≤ crossed.size ∧ (crossed.used 6).inspect.answer = .ok () ∧
      crossed.pack 6 ≠ .error .sizeOverflow ∧
      ∃ events, crossed.pack 6 = .ok ⟨.ok (crossed.used 6).packed, events⟩ := by
  have htop : 6 ≤ crossed.size := by decide
  have haccepted : (crossed.used 6).inspect.answer = .ok () := by cbv
  have hfits : crossed.pack 6 ≠ .error .sizeOverflow := by decide +kernel
  exact ⟨htop, haccepted, hfits, pack_eq_packed crossed 6 htop haccepted hfits⟩

/-! ### What packing can answer -/

/-- Packing answers that more slots are said to be used than there are exactly
when that is so; otherwise it rejects what the check rejects, for the same
reason. Of what the check accepts it makes a tree, except when for a walked slot
the lengths of the children that do not collect add up to more than 64 bits
hold. Then the sum is the only fault there is. -/
theorem pack_outcomes (forest : Forest) (top : Nat) :
    (∀ said size, (∃ events, forest.pack top = .ok ⟨.error (.topBeyondArray said size), events⟩) ↔
        forest.size < top ∧ said = top ∧ size = forest.size) ∧
      (∀ rejection, (∃ events, forest.pack top = .ok ⟨.error rejection, events⟩) ↔
        forest.size < top ∧ rejection = .topBeyondArray top forest.size ∨
          top ≤ forest.size ∧ (forest.used top).inspect.answer = .error rejection) ∧
      (∀ fault, forest.pack top = .error fault ↔
        top ≤ forest.size ∧ (forest.used top).inspect.answer = .ok () ∧ fault = .sizeOverflow ∧
          ∃ p, (forest.used top).Walked p ∧
            UInt64.size ≤ (forest.used top).plainLength ((forest.used top).family (some p))) ∧
      ((∃ out events, forest.pack top = .ok ⟨.ok out, events⟩) ↔
        top ≤ forest.size ∧ (forest.used top).inspect.answer = .ok () ∧
          ¬ ∃ p, (forest.used top).Walked p ∧
            UInt64.size ≤ (forest.used top).plainLength ((forest.used top).family (some p))) := by
  -- One case for each way through packing. In each, all four statements are decided.
  simp only [← not_sumsFit_iff, not_not]
  rcases Nat.lt_or_ge forest.size top with hlt | hle
  · have hnot : ¬ top ≤ forest.size := Nat.not_le_of_lt hlt
    rw [pack_of_lt hlt]
    simp [hlt, hnot, eq_comm]
  · have hnot : ¬ forest.size < top := Nat.not_lt_of_le hle
    cases hanswer : (forest.used top).inspect.answer with
    | error rejection =>
      -- The check itself never says that too many slots were said to be used.
      have hne : ∀ said size, rejection ≠ .topBeyondArray said size := by
        intro said size heq
        rw [inspect_answer, heq] at hanswer
        exact check_ne_topBeyondArray _ _ _ hanswer
      rw [pack_of_rejected hle hanswer]
      simp [hle, hnot, hne]
    | ok _ =>
      rcases pack_cases hle hanswer with ⟨⟨events, hpack⟩, hfits⟩ | ⟨hpack, hlong⟩
      · rw [hpack]
        simp [hle, hnot, hfits]
      · rw [hpack]
        simp [hle, hnot, hlong, eq_comm]

/-! ### Walks through what is packed -/

/-- No node of the packed tree is above itself, and the parents are in the
array. -/
theorem keptWhere_packedNode_wayUp (h : forest.IsTree) :
    (forest.keptWhere forest.packedNode).Closed ∧
      (forest.keptWhere forest.packedNode).wayUp.Acyclic :=
  ⟨forest.underNearest_packedNode.closed,
    forest.underNearest_packedNode.acyclic (adoptedParent_acyclic h.acyclic forest.walked)⟩

/-- In what is packed, the walk along the top level ends, and so does the walk
below each of its nodes. Together they find every node there is, and none of
them twice. -/
theorem pack_walkAll_perm {out : Forest} {events : Array Event}
    (h : forest.pack top = .ok ⟨.ok out, events⟩) :
    Walk.Yields out out.walkTop (Walk.items out out.walkTop) ∧
      (∀ t ∈ Walk.items out out.walkTop,
        Walk.Yields out (out.walkBelow t) (Walk.items out (out.walkBelow t))) ∧
      ((Walk.items out out.walkTop).flatMap fun t =>
        t :: Walk.items out (out.walkBelow t)).Perm (List.range out.size) := by
  obtain ⟨htree, rfl⟩ := pack_eq_ok h
  obtain ⟨hclosed, hacyclic⟩ := keptWhere_packedNode_wayUp htree
  rw [packed, size_familyLinked]
  exact walkAll_perm hclosed hacyclic

/-- The first six slots of `crossed` can be packed, and walks come to all four
nodes that are left. -/
theorem pack_walkAll_perm_crossed :
    ∃ events, crossed.pack 6 = .ok ⟨.ok (crossed.used 6).packed, events⟩ ∧
      ((Walk.items (crossed.used 6).packed (crossed.used 6).packed.walkTop).flatMap fun t =>
        t :: Walk.items (crossed.used 6).packed ((crossed.used 6).packed.walkBelow t)).Perm
          (List.range (crossed.used 6).packed.size) := by
  have hpack : crossed.pack 6 = .ok ⟨.ok (crossed.used 6).packed,
      #[.absorbed 3 1 0, .absorbed 5 2 0, .packed 6 4]⟩ := by decide +kernel
  exact ⟨_, hpack, (pack_walkAll_perm hpack).2.2⟩

end Forest

end ParseForest
