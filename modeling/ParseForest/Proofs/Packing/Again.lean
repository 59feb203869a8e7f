import ParseForest.Proofs.Collecting.Run
import ParseForest.Proofs.Packing.Cancellation
import ParseForest.Proofs.Packing.Lineage

/-!
# `ParseForest.Proofs.Packing.Again`: packing what was packed

`Forest.Finished` is an array that packing has nothing left to do with: it is a
tree with the links that its parents imply, no node of it is to be dropped, and
none collects but perhaps the root. Each pass leaves such an array as it is, so
it is its own packed tree (`Forest.Finished.packed_eq`). The check accepts it,
since only a node with a parent can collect in vain
(`Forest.Finished.check_eq`).

If the root stays and all collecting nodes go, the packed tree is finished
(`Forest.finished_packed`). That it is a tree again follows from what packing
keeps above a node: the root was above every node, and still is.

`Forest.pack_again` puts the two together. The sums of the second run are new
ones, because nodes of different parents may have come under one, so they are
asked to fit.
-/

set_option autoImplicit false

namespace ParseForest.Forest

variable {forest : Forest} {node : Node} {ids : List NodeId} {k p : NodeId}

/-- How many bytes the nodes of some slots are long together. -/
def totalLength (forest : Forest) : (ids : List NodeId) → Nat
  | [] => 0
  | k :: ids => forest.lengthAt k + totalLength forest ids

/-- There is nothing left for packing to do. -/
structure Finished (forest : Forest) : Prop where
  isTree : forest.IsTree
  keptAt : ∀ k < forest.size, forest.keptAt k = true
  plain : ∀ k, k ≠ NodeId.root → forest.collectsAt k = false
  linked : forest.familyLinked = forest

/-! ### Packing a finished array -/

/-- Where all nodes below a slot stay, the node of the slot does not move. -/
theorem newSlot_eq_self (hkept : ∀ j < k, forest.keptAt j = true) : forest.newSlot k = k := by
  induction k with
  | zero => rfl
  | succ k ih =>
    have hbelow : forest.newSlot k = k := ih fun j hj => hkept j (Nat.lt_succ_of_lt hj)
    rw [newSlot_succ, hbelow, if_pos (hkept k (Nat.lt_succ_self k))]

/-- Nodes that do not collect are no longer than all nodes. -/
theorem plainLength_le_totalLength (forest : Forest) (ids : List NodeId) :
    forest.plainLength ids ≤ forest.totalLength ids := by
  induction ids with
  | nil => exact Nat.le_refl 0
  | cons k ids ih =>
    unfold plainLength totalLength lengthAt
    cases forest[k]? with
    | none => simpa using ih
    | some node =>
      show (if node.collects then 0 else node.length.toNat) + _ ≤ node.length.toNat + _
      split <;> omega

namespace Finished

/-- A node with a parent does not collect, since it is not the root. -/
theorem plain_of_parent (h : forest.Finished) (hp : forest.parent? k = some p) :
    forest.collectsAt k = false :=
  h.plain k (h.isTree.ne_root_of_parent hp)

/-- No parent changes when the children of some slots go through adoption. -/
theorem adoptedParent_eq (h : forest.Finished) (visited : NodeId → Bool) :
    forest.adoptedParent visited = forest.wayUp :=
  adoptedParent_eq_wayUp (fun _ _ => h.plain_of_parent) visited

/-- The nearest node above that stays is the parent, since all nodes stay. -/
theorem nearestKept?_eq (h : forest.Finished) (k : NodeId) :
    forest.nearestKept? forest.wayUp k = forest.parent? k := by
  cases hp : forest.parent? k with
  | none => exact nearestKept?_of_up_none hp
  | some p =>
    have hkept := h.keptAt p (h.isTree.closed k p hp)
    rw [nearestKept?_of_up forest.wayUp_within h.isTree.acyclic hp, if_pos hkept]

/-- Packing changes no node: the parent does not move, because no node does, and
no span is set. -/
theorem packedNode_eq (h : forest.Finished) (hnode : forest[k]? = some node) :
    forest.packedNode k node = node := by
  have hparent : forest.parent? k = node.parent := parent?_eq hnode
  -- The parent does not move, because no node does.
  have hslot : node.parent.map forest.newSlot = node.parent := by
    cases hp : node.parent with
    | none => rfl
    | some p =>
      have hlt : p < forest.size := h.isTree.closed k p (hparent.trans hp)
      show some (forest.newSlot p) = some p
      rw [newSlot_eq_self fun j hj => h.keptAt j (Nat.lt_trans hj hlt)]
  have hnearest : (forest.nearestKept? (forest.adoptedParent forest.walked) k).map
      forest.newSlot = node.parent := by
    rw [h.adoptedParent_eq, h.nearestKept?_eq, hparent, hslot]
  cases hp : node.parent with
  | none => rw [packedNode_of_parent_none hp, hnearest]
  | some p =>
    have hplain : node.collects = false := by
      rw [← collectsAt_eq hnode]
      exact h.plain_of_parent (hparent.trans hp)
    rw [packedNode_of_plain hplain, hnearest]

/-- A finished array is its own packed tree. Each node stays in its slot, and
the links are there already. -/
theorem packed_eq (h : forest.Finished) : forest.packed = forest := by
  have hslot : ∀ k ≤ forest.size, forest.newSlot k = k := fun k hk =>
    newSlot_eq_self fun j hj => h.keptAt j (Nat.lt_of_lt_of_le hj hk)
  have hsame : forest.keptWhere forest.packedNode = forest := by
    refine (eq_keptWhere (hslot forest.size (Nat.le_refl _)).symm fun k node hnode _ => ?_).symm
    have hlt : k < forest.size := (Array.getElem?_eq_some_iff.1 hnode).1
    rw [hslot k (Nat.le_of_lt hlt), h.packedNode_eq hnode, hnode]
  rw [packed, hsame, h.linked]

/-- A finished array is accepted. It is a tree, and only a node with a parent
can collect in vain. -/
theorem check_eq (h : forest.Finished) : forest.check = .ok () := by
  have hfollow : ∀ c, ¬ forest.CollectsFirst c := by
    rintro c ⟨hcollects, p, hp, -⟩
    rw [h.plain_of_parent hp] at hcollects
    cases hcollects
  exact check_eq_ok_iff.2 ⟨h.isTree, hfollow⟩

/-- If 64 bits hold the length of the children of every node, no sum is too
long. -/
theorem sumsFit (h : forest.Finished)
    (hfits : ∀ p < forest.size,
      forest.totalLength (forest.family (some p)) < UInt64.size) : forest.SumsFit :=
  SumsFit.of_lt_size h.isTree.closed fun p hp _ =>
    Nat.lt_of_le_of_lt (forest.plainLength_le_totalLength _) (hfits p hp)

/-- Packing makes of a finished array the array itself, if the sums fit. -/
theorem pack_eq (h : forest.Finished)
    (hfits : ∀ p < forest.size,
      forest.totalLength (forest.family (some p)) < UInt64.size) :
    ∃ events, forest.pack forest.size = .ok ⟨.ok forest, events⟩ := by
  have haccepted : (forest.used forest.size).check = .ok () := by
    rw [used_size]
    exact h.check_eq
  have hsums : (forest.used forest.size).SumsFit := by
    rw [used_size]
    exact h.sumsFit hfits
  have hpacked : forest = (forest.used forest.size).packed := by
    rw [used_size, h.packed_eq]
  exact pack_eq_ok_iff.2 ⟨Nat.le_refl _, haccepted, hsums, hpacked⟩

end Finished

/-! ### What was packed is finished -/

/-- Packing changes no flag for removal. -/
theorem packedNode_removed (forest : Forest) (k : NodeId) (node : Node) :
    (forest.packedNode k node).removed = node.removed := by
  unfold packedNode
  split <;> rfl

/-- Packing changes no flag for collecting. -/
theorem packedNode_collects (forest : Forest) (k : NodeId) (node : Node) :
    (forest.packedNode k node).collects = node.collects := by
  unfold packedNode
  split <;> rfl

/-- A node is packed with its flags. -/
theorem flags_packed (hk : forest.keptAt k = true) :
    forest.packed.keptAt (forest.newSlot k) = true ∧
      forest.packed.collectsAt (forest.newSlot k) = forest.collectsAt k := by
  obtain ⟨node, hnode, hremoved⟩ := exists_node_of_keptAt hk
  have hpacked := getElem?_packed hnode hremoved
  rw [keptAt_eq hpacked, collectsAt_eq hpacked, collectsAt_eq hnode]
  show (!(forest.packedNode k node).removed) = true ∧ (forest.packedNode k node).collects = _
  rw [packedNode_removed, packedNode_collects, hremoved]
  exact ⟨rfl, rfl⟩

/-- If the root of a tree stays, a tree is packed. The root was above every
node, and what was above a node is above it still. -/
theorem isTree_packed (h : forest.IsTree)
    (hroot : 0 < forest.size → forest.keptAt NodeId.root = true) : forest.packed.IsTree := by
  have hclosed : forest.packed.Closed := by
    intro j i hi
    rw [packed, parent?_familyLinked] at hi
    rw [packed, size_familyLinked]
    exact forest.underNearest_packedNode.closed j i hi
  -- Every node that is packed comes from one that stays, so there is a root, and it stays.
  have hkeptRoot : ∀ {k}, forest.keptAt k = true → forest.keptAt NodeId.root = true := fun hk =>
    hroot (Nat.zero_lt_of_lt (lt_size_of_keptAt hk))
  have hfirst : forest.newSlot NodeId.root = NodeId.root := rfl
  refine ⟨hclosed, ?_, fun j hj => ?_⟩
  · cases hp : forest.packed.parent? NodeId.root with
    | none => rfl
    | some i =>
      obtain ⟨k, hk, -⟩ := exists_newSlot_of_lt_packed (lt_size_of_parent hp)
      have hnone : forest.adoptedParent forest.walked NodeId.root = none := by
        unfold adoptedParent
        rw [h.root_parent]
      have hparent := parent?_packed (hkeptRoot hk)
      rw [hfirst, nearestKept?_of_up_none hnone, hp] at hparent
      cases hparent
  · obtain ⟨k, hk, rfl⟩ := exists_newSlot_of_lt_packed hj
    rcases WayUp.atOrAbove_iff.1 (h.root_atOrAbove k (lt_size_of_keptAt hk)) with rfl | habove
    · exact WayUp.AtOrAbove.refl _
    · exact ((above_packed_iff h (hkeptRoot hk) hk).2 (Or.inl habove)).atOrAbove

/-- If the root of a tree stays and no other collecting node does, the packed
tree is finished. -/
theorem finished_packed (h : forest.IsTree)
    (hroot : 0 < forest.size → forest.keptAt NodeId.root = true)
    (hremoved : forest.CollectorsRemoved) : forest.packed.Finished := by
  constructor
  case isTree => exact isTree_packed h hroot
  case keptAt =>
    intro j hj
    obtain ⟨k, hk, rfl⟩ := exists_newSlot_of_lt_packed hj
    exact (flags_packed hk).1
  case plain =>
    intro j hj
    rcases Nat.lt_or_ge j forest.packed.size with hlt | hge
    · obtain ⟨k, hk, rfl⟩ := exists_newSlot_of_lt_packed hlt
      -- The root stays where it is, so another slot comes from another slot.
      have hne : k ≠ NodeId.root := fun heq => hj (by rw [heq]; rfl)
      rw [(flags_packed hk).2, ← Bool.not_eq_true]
      intro hcollects
      have hgone := hremoved k hne hcollects
      rw [hk] at hgone
      cases hgone
    · unfold collectsAt
      rw [Array.getElem?_eq_none hge]
      rfl
  case linked => exact familyLinked_familyLinked _

/-- Let packing make a tree of all of an array whose root stays, and of whose
other collecting nodes none does. If for every node of the tree 64 bits hold the
length of its children, then packing the tree changes nothing in it. -/
theorem pack_again {out : Forest} {events : Array Event}
    (h : forest.pack forest.size = .ok ⟨.ok out, events⟩)
    (hroot : 0 < forest.size → forest.keptAt NodeId.root = true)
    (hremoved : forest.CollectorsRemoved)
    (hfits : ∀ p < out.size, out.totalLength (out.family (some p)) < UInt64.size) :
    ∃ events', out.pack out.size = .ok ⟨.ok out, events'⟩ := by
  obtain ⟨htree, rfl⟩ := pack_eq_ok h
  rw [used_size] at htree hfits ⊢
  exact (finished_packed htree hroot hremoved).pack_eq hfits

/-- A removed group stored behind its first node. What is left of it comes under
the collecting root, beside a node that was the sibling of the group. -/
def ungrouped : Forest := #[
  { Node.fresh "root" none 0 with length := 7, collects := true },
  { Node.fresh "first" (some 2) 0 with length := 2 },
  { Node.fresh "group" (some 0) 0 with length := 5, removed := true },
  { Node.fresh "pair" (some 2) 2 with removed := true, collects := true },
  { Node.fresh "second" (some 2) 2 with length := 3 },
  { Node.fresh "third" (some 0) 5 with length := 2 },
  { Node.fresh "all" (some 0) 7 with removed := true, collects := true }]

/-- The hypotheses hold of `ungrouped`. Three nodes that had two parents come
under the root, so a sum of the second run is a new one. -/
theorem pack_again_ungrouped :
    (∃ events, ungrouped.pack ungrouped.size = .ok ⟨.ok ungrouped.packed, events⟩) ∧
      ungrouped.keptAt NodeId.root = true ∧ ungrouped.CollectorsRemoved ∧
      ungrouped.packed.family (some 0) = [1, 2, 3] ∧
      ∃ events', ungrouped.packed.pack ungrouped.packed.size =
        .ok ⟨.ok ungrouped.packed, events'⟩ := by
  have hpack : ungrouped.pack ungrouped.size =
      .ok ⟨.ok ungrouped.packed, #[.absorbed 6 2 0, .absorbed 3 1 2, .packed 7 4]⟩ := by
    decide +kernel
  have hroot : ungrouped.keptAt NodeId.root = true := by decide
  have hremoved : ungrouped.CollectorsRemoved := by decide
  have hfamily : ungrouped.packed.family (some 0) = [1, 2, 3] := by decide +kernel
  have hfits : ∀ p < ungrouped.packed.size,
      ungrouped.packed.totalLength (ungrouped.packed.family (some p)) < UInt64.size := by
    decide +kernel
  exact ⟨⟨_, hpack⟩, hroot, hremoved, hfamily,
    pack_again hpack (fun _ => hroot) hremoved hfits⟩

end ParseForest.Forest
