import ParseForest.Proofs.Packing
import ParseForest.Proofs.Walk.Preorder

/-!
# `ParseForest.Proofs.Packing.DocumentOrder`: packing keeps the order of a walk

A matcher leaves its nodes in the order in which a walk would come to them
(`WayUp.Preordered`). Where nothing but the root collects, packing takes nodes
out and does nothing else to the parents, so what is packed is in that order
again, whichever nodes were removed. A walk through it goes along the array
from end to end: `Forest.pack_walkAll_eq_range`.
-/

set_option autoImplicit false

namespace ParseForest.Forest

variable {forest : Forest}

/-- In a tree it is enough to say of the slots behind the first where their
parents are, since the first is the root. -/
theorem IsTree.preordered (h : forest.IsTree)
    (horder : ∀ k p : Nat, forest.parent? (k + 1) = some p → forest.wayUp.AtOrAbove p k) :
    forest.wayUp.Preordered := by
  intro k p hp
  cases k with
  | zero =>
    have hroot := h.root_parent.symm.trans hp
    cases hroot
  | succ k => exact ⟨k, rfl, horder k p hp⟩

/-- If nothing but the root collects, the nodes of a packed tree are in the
order of a walk if those of the array are. Adoption changes no parent then, and
compaction keeps the order. -/
theorem packed_preordered (h : forest.IsTree)
    (hplain : ∀ k, k ≠ NodeId.root → forest.collectsAt k = false)
    (horder : forest.wayUp.Preordered) : (forest.keptWhere forest.packedNode).wayUp.Preordered := by
  have hup : forest.adoptedParent forest.walked = forest.wayUp :=
    adoptedParent_eq_wayUp (fun c _ hp => hplain c (h.ne_root_of_parent hp)) _
  have hunder := forest.underNearest_packedNode
  rw [hup] at hunder
  exact hunder.preordered forest.wayUp_within horder

/-- Let nothing but the root collect, and let the parent of every slot behind
the first be the slot before it or above that one. Then walks through what is
packed, along the top level and below each of its nodes, end, and they come to
the nodes in the order of the array. -/
theorem pack_walkAll_eq_range
    (hplain : ∀ k, k ≠ NodeId.root → forest.collectsAt k = false)
    (horder : ∀ k p : Nat, forest.parent? (k + 1) = some p → forest.wayUp.AtOrAbove p k)
    {out : Forest} {events : Array Event}
    (h : forest.pack forest.size = .ok ⟨.ok out, events⟩) :
    Walk.Yields out out.walkTop (Walk.items out out.walkTop) ∧
      (∀ t ∈ Walk.items out out.walkTop,
        Walk.Yields out (out.walkBelow t) (Walk.items out (out.walkBelow t))) ∧
      out.walkAll = List.range out.size := by
  obtain ⟨htree, rfl⟩ := pack_eq_ok h
  rw [used_size] at htree ⊢
  have hpreordered := packed_preordered htree hplain (htree.preordered horder)
  obtain ⟨hclosed, hacyclic⟩ := keptWhere_packedNode_wayUp htree
  obtain ⟨htop, hbelow, -⟩ := walkAll_perm hclosed hacyclic
  refine ⟨htop, hbelow, ?_⟩
  rw [packed, size_familyLinked]
  exact walkAll_eq_range hclosed hpreordered

/-- A removed root over two nodes, one of them with a removed node between other
children. -/
def orderly : Forest := #[
  { Node.fresh "root" none 0 with removed := true, collects := true },
  { Node.fresh "first" (some 0) 0 with length := 4 },
  { Node.fresh "leaf" (some 1) 0 with length := 1 },
  { Node.fresh "gone" (some 1) 1 with length := 2, removed := true },
  { Node.fresh "inner" (some 3) 1 with length := 1 },
  { Node.fresh "deep" (some 4) 1 with length := 1 },
  { Node.fresh "late" (some 1) 3 with length := 1 },
  { Node.fresh "second" (some 0) 4 with length := 2 }]

/-- The hypotheses hold of `orderly`, and walks come to the six nodes that are
left from first to last. -/
theorem pack_walkAll_eq_range_orderly :
    (∀ k, k ≠ NodeId.root → orderly.collectsAt k = false) ∧
      (∀ k p : Nat, orderly.parent? (k + 1) = some p → orderly.wayUp.AtOrAbove p k) ∧
      ∃ events, orderly.pack orderly.size = .ok ⟨.ok orderly.packed, events⟩ ∧
        orderly.packed.walkAll = List.range 6 := by
  have hplain : ∀ k, k ≠ NodeId.root → orderly.collectsAt k = false := by
    intro k hk
    rcases Nat.lt_or_ge k orderly.size with hlt | hge
    · have hall : ∀ k < orderly.size, k ≠ NodeId.root → orderly.collectsAt k = false := by decide
      exact hall k hlt hk
    · simp [collectsAt, Array.getElem?_eq_none hge]
  have horder : ∀ k p : Nat, orderly.parent? (k + 1) = some p →
      orderly.wayUp.AtOrAbove p k := by
    intro k p hp
    have hall : ∀ k < orderly.size, ∀ p ∈ orderly.parent? (k + 1),
        p = k ∨ orderly.wayUp.Above p k := by decide +kernel
    exact WayUp.atOrAbove_iff.2 (hall k (Nat.lt_of_succ_lt (lt_size_of_parent hp)) p hp)
  have hpack : orderly.pack orderly.size = .ok ⟨.ok orderly.packed, #[.packed 8 6]⟩ := by
    decide +kernel
  have hsize : orderly.packed.size = 6 := by decide +kernel
  have hwalk := (pack_walkAll_eq_range hplain horder hpack).2.2
  rw [hsize] at hwalk
  exact ⟨hplain, horder, _, hpack, hwalk⟩

end ParseForest.Forest
