import ParseForest.Forest
import ParseForest.Proofs.Ancestry

/-!
# `ParseForest.Proofs.Tree`: forests that are trees

`Forest.wayUp` is the way up that the parents of a forest make, and
`Forest.collectsAt` reads a flag of a slot that may not exist. `Forest.IsTree`
says what an array is that can be packed, collecting nodes apart: the parents
are in the array, and every way up ends at the root. The induction
`Forest.IsTree.induction` goes from the root to the leaves.
-/

set_option autoImplicit false

namespace ParseForest

namespace Forest

variable {forest forest' : Forest} {k p : NodeId}

/-- The way up that the parents make. -/
abbrev wayUp (forest : Forest) : WayUp := forest.parent?

/-- The slot holds a node that is to take in the siblings before it. -/
def collectsAt (forest : Forest) (k : NodeId) : Bool := forest[k]?.any Node.collects

/-- Every parent is a slot of the array. -/
def Closed (forest : Forest) : Prop := ∀ k p, forest.parent? k = some p → p < forest.size

/-- The array is one tree under its first slot. -/
structure IsTree (forest : Forest) : Prop where
  closed : forest.Closed
  root_parent : forest.parent? NodeId.root = none
  root_atOrAbove : ∀ k, k < forest.size → forest.wayUp.AtOrAbove NodeId.root k

/-- A node of the array is found. This and `except_ok_bind` take a pass over
each of its look-ups. -/
theorem fetch_eq_ok {node : Node} (h : forest[k]? = some node) : forest.fetch k = .ok node := by
  rw [fetch, h]

/-- The parent of a slot is the one that its node names. -/
theorem parent?_eq {node : Node} (h : forest[k]? = some node) : forest.parent? k = node.parent := by
  rw [parent?, h]
  rfl

/-- A slot that is not in the array has no parent, so a way up that leaves the
array ends there. -/
theorem parent?_of_size_le (hk : forest.size ≤ k) : forest.parent? k = none := by
  rw [parent?, Array.getElem?_eq_none hk]
  rfl

/-- A slot with a parent is in the array. Nothing is said of the parent, which
may lead out of it. -/
theorem lt_size_of_parent (h : forest.parent? k = some p) : k < forest.size := by
  refine Nat.lt_of_not_le fun hk => ?_
  rw [parent?_of_size_le hk] at h
  cases h

/-- Only slots of the array have something above them: the first link of a way
up is the parent of some node. -/
theorem lt_size_of_above {a : NodeId} (h : forest.wayUp.Above a k) : k < forest.size := by
  obtain ⟨p, hp, -⟩ := WayUp.above_iff.1 h
  exact lt_size_of_parent hp

/-- Arrays with the same parents are of one size. Together with
`parent?_of_map_parent` this is all that a pass over parents can tell two arrays
apart by. -/
theorem size_of_map_parent (h : forest'.map Node.parent = forest.map Node.parent) :
    forest'.size = forest.size := by
  have hsize := congrArg Array.size h
  rwa [Array.size_map, Array.size_map] at hsize

/-- Arrays with the same parents have the same way up, from slots outside the
array too. -/
theorem parent?_of_map_parent (h : forest'.map Node.parent = forest.map Node.parent)
    (k : NodeId) : forest'.parent? k = forest.parent? k := by
  have hparent : forest'[k]?.map Node.parent = forest[k]?.map Node.parent := by
    rw [← Array.getElem?_map, ← Array.getElem?_map, h]
  have hbind := congrArg (Option.bind · id) hparent
  rw [Option.bind_map, Option.bind_map] at hbind
  exact hbind

/-- Whether all parents are in the array depends on the parents alone. -/
theorem Closed.of_map_parent (hclosed : forest.Closed)
    (h : forest'.map Node.parent = forest.map Node.parent) : forest'.Closed := by
  intro k p hp
  rw [parent?_of_map_parent h] at hp
  rw [size_of_map_parent h]
  exact hclosed k p hp

instance (forest : Forest) : Decidable forest.Closed :=
  decidable_of_iff (∀ k < forest.size, ∀ p ∈ forest.parent? k, p < forest.size)
    ⟨fun h k p hp => h k (lt_size_of_parent hp) p hp, fun h k _ p hp => h k p hp⟩

/-- A list of slots of the array, none of them twice, is no longer than the
array. This bounds what a loop meets that never meets a slot twice. -/
theorem length_le_size {ids : List NodeId} (hnodup : ids.Nodup)
    (hlt : ∀ k ∈ ids, k < forest.size) : ids.length ≤ forest.size := by
  have hsubset : ids ⊆ List.range forest.size := fun k hk => List.mem_range.2 (hlt k hk)
  have hlength := (List.subperm_of_subset hnodup hsubset).length_le
  rwa [List.length_range] at hlength

/-- Only slots of the array have a parent. It is what the lemmas on ways up ask
of an array, in their vocabulary. -/
theorem wayUp_within (forest : Forest) : forest.wayUp.Within forest.size :=
  fun _ _ h => lt_size_of_parent h

/-- The way up is followed at most as often as there are slots to find what is
above one. -/
instance decidableAbove (forest : Forest) (a k : NodeId) : Decidable (forest.wayUp.Above a k) :=
  decidable_of_iff (a ∈ forest.wayUp.ascent forest.size k)
    (WayUp.mem_ascent_iff forest.wayUp_within)

namespace IsTree

/-- No way up in a tree comes back to a slot, because it ends at the root, which
has no parent. -/
theorem acyclic (h : forest.IsTree) : forest.wayUp.Acyclic := by
  intro k hk
  have hroot := h.root_atOrAbove k (lt_size_of_above hk)
  exact WayUp.not_above_self_of_end h.root_parent hroot hk

/-- A slot with a parent is not the root. -/
theorem ne_root_of_parent (h : forest.IsTree) (hp : forest.parent? k = some p) :
    k ≠ NodeId.root := by
  rintro rfl
  rw [h.root_parent] at hp
  cases hp

/-- An array whose first slot has no parent and every other slot has one before
it is a tree. Matchers that make a node after its parent leave such arrays, and
so does the builder. -/
theorem of_parents_before (hroot : forest.parent? NodeId.root = none)
    (hbefore : ∀ k < forest.size, k ≠ NodeId.root → ∃ p < k, forest.parent? k = some p) :
    forest.IsTree := by
  refine ⟨fun k p hp => ?_, hroot, fun k hk => ?_⟩
  · -- A parent is a lower slot, and so it is in the array.
    have hk := lt_size_of_parent hp
    have hne : k ≠ NodeId.root := by
      rintro rfl
      rw [hroot] at hp
      cases hp
    obtain ⟨q, hqk, hq⟩ := hbefore k hk hne
    rw [hp] at hq
    cases hq
    exact Nat.lt_trans hqk hk
  · -- The way up leads from each slot to a lower one, and so to the first.
    induction k using Nat.strongRecOn with
    | ind k ih =>
      by_cases hne : k = NodeId.root
      · rw [hne]
        exact WayUp.AtOrAbove.refl _
      · obtain ⟨p, hpk, hp⟩ := hbefore k hk hne
        have hproot := ih p hpk (Nat.lt_trans hpk hk)
        exact ((WayUp.above_iff_of_up hp).2 hproot).atOrAbove

/-- A tree in terms that can be decided slot by slot: the parents are in the
array, the first slot has none, and every other slot has the first one above
it. -/
theorem iff_above :
    forest.IsTree ↔ forest.Closed ∧ forest.parent? NodeId.root = none ∧
      ∀ k < forest.size, NodeId.root = k ∨ forest.wayUp.Above NodeId.root k := by
  simp only [← WayUp.atOrAbove_iff]
  exact ⟨fun h => ⟨h.closed, h.root_parent, h.root_atOrAbove⟩, fun ⟨hclosed, hroot, habove⟩ =>
    ⟨hclosed, hroot, habove⟩⟩

instance (forest : Forest) : Decidable forest.IsTree := decidable_of_iff _ iff_above.symm

/-- What holds of the root, and of every slot whose parent it holds of, holds of
all slots. The induction is over the way up from a slot to the root, so it goes
down the tree. -/
theorem induction (h : forest.IsTree) {motive : NodeId → Prop} (root : motive NodeId.root)
    (step : ∀ k p, forest.parent? k = some p → motive p → motive k) (hk : k < forest.size) :
    motive k := by
  induction h.root_atOrAbove k hk using Relation.ReflTransGen.head_induction_on with
  | refl => exact root
  | head hlink _ ih => exact step _ _ hlink (ih (h.closed _ _ hlink))

end IsTree

end Forest

end ParseForest
