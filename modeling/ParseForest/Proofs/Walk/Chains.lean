import ParseForest.Proofs.Links
import ParseForest.Proofs.Walk.Linked

/-!
# `ParseForest.Proofs.Walk.Chains`: the chains of siblings in a linked forest

Linking strings the slots under each parent together, and those at the top
level. A walk along siblings goes through one such chain. `Forest.FindsFamily`
says of a walk that it ends, and that it finds the slots under one parent in the
order of the array; in a linked forest this holds of every walk that starts at
the first child of a slot or at the top level, whether the parents lead around
in circles or not.

As every slot has one parent or none, the chains share nothing and leave nothing
out: put one behind the other they are the slots of the array, each of them once
(`Forest.chains_perm`). `Forest.relink_chains` puts together what there is to
say of linking.
-/

set_option autoImplicit false

namespace ParseForest.Forest

variable {forest : Forest} {parent parent' : Option NodeId} {walk : SiblingWalk}

/-- The walk through the linked forest ends, and before it finds the slots under
a parent, or those without one, in order. -/
structure FindsFamily (forest linked : Forest) (parent : Option NodeId) (walk : SiblingWalk) :
    Prop where
  ends : Walk.Yields linked walk (Walk.items linked walk)
  mem_iff : ∀ k, k ∈ Walk.items linked walk ↔ k < forest.size ∧ forest.parent? k = parent
  increasing : (Walk.items linked walk).Pairwise (· < ·)

/-- What the walks along siblings find: the walk along the top level, and the
walk from the first child of each slot. -/
def chains (forest : Forest) : List (List NodeId) :=
  Walk.items forest forest.walkTop ::
    (List.range forest.size).map fun p => Walk.items forest (forest.walkChildren p)

/-! ### One chain -/

/-- The walk from the first child of a slot finds the slots under it. If the
slot is not in the array there are none, because all parents are. -/
theorem walkChildren_yields (hclosed : forest.Closed) (p : NodeId) :
    Walk.Yields forest.familyLinked (forest.familyLinked.walkChildren p)
      (forest.family (some p)) := by
  rw [walkChildren]
  rcases Nat.lt_or_ge p forest.size with hp | hp
  · rw [child_familyLinked hp]
    exact (forest.row_family (some p)).yields
  · have hnone : forest.familyLinked[p]? = none := by
      rw [getElem?_familyLinked, Array.getElem?_eq_none hp]
      rfl
    rw [hnone, family_of_size_le hclosed hp]
    exact .nil rfl

/-- No family is longer than the forest, so the bound of the walk does not cut
it short. -/
theorem items_of_yields_family
    (h : Walk.Yields forest.familyLinked walk (forest.family parent)) :
    Walk.items forest.familyLinked walk = forest.family parent := by
  refine h.items_eq ?_
  show (forest.family parent).length ≤ forest.familyLinked.size
  rw [size_familyLinked]
  exact forest.length_family_le parent

/-- The items of the walk from the first child of a slot are the slots under
it. -/
theorem items_walkChildren (hclosed : forest.Closed) (p : NodeId) :
    Walk.items forest.familyLinked (forest.familyLinked.walkChildren p) =
      forest.family (some p) :=
  items_of_yields_family (walkChildren_yields hclosed p)

/-- A walk that yields a family finds it in the sense of `Forest.FindsFamily`,
where no list is named. -/
theorem findsFamily_of_yields
    (h : Walk.Yields forest.familyLinked walk (forest.family parent)) :
    forest.FindsFamily forest.familyLinked parent walk := by
  have hitems := items_of_yields_family h
  refine ⟨?_, fun k => ?_, ?_⟩
  · rw [hitems]
    exact h
  · rw [hitems]
    exact mem_family
  · rw [hitems]
    exact forest.family_pairwise parent

/-! ### All chains -/

/-- No slot is under two parents. -/
theorem disjoint_family (h : parent ≠ parent') :
    (forest.family parent).Disjoint (forest.family parent') := by
  intro k hk hk'
  exact h ((mem_family.1 hk).2.symm.trans (mem_family.1 hk').2)

/-- The chains of a linked forest are its families, that at the top level first,
then one for each slot. -/
theorem chains_familyLinked (hclosed : forest.Closed) :
    forest.familyLinked.chains =
      (none :: (List.range forest.size).map some).map forest.family := by
  rw [chains, items_walkTop, size_familyLinked, List.map_cons, List.map_map]
  simp only [items_walkChildren hclosed]
  rfl

/-- In the chains of a linked forest, every slot comes once: in the chain of its
parent, or in that at the top level. -/
theorem chains_perm (hclosed : forest.Closed) :
    forest.familyLinked.chains.flatten.Perm (List.range forest.size) := by
  rw [chains_familyLinked hclosed, ← List.flatMap_def]
  refine (List.perm_ext_iff_of_nodup ?_ List.nodup_range).2 fun k => ?_
  · refine List.nodup_flatMap.2 ⟨fun parent _ => forest.family_nodup parent, ?_⟩
    have hparents : (none :: (List.range forest.size).map some).Nodup := by
      refine List.nodup_cons.2 ⟨by simp, ?_⟩
      exact List.nodup_range.map (Option.some_injective NodeId)
    exact hparents.imp disjoint_family
  · rw [List.mem_flatMap, List.mem_range]
    constructor
    · rintro ⟨parent, -, hk⟩
      exact (mem_family.1 hk).1
    · intro hk
      refine ⟨forest.parent? k, ?_, mem_family.2 ⟨hk, rfl⟩⟩
      cases hp : forest.parent? k with
      | none => exact List.mem_cons_self
      | some p =>
        refine List.mem_cons_of_mem _ (List.mem_map_of_mem ?_)
        exact List.mem_range.2 (hclosed k p hp)

/-- Linking an array that holds all parents succeeds, and then

* the walk from the first child of any slot finds the slots under it in order,
  and ends;
* so does the walk along the top level with the slots that have no parent;
* among all these chains, every slot comes in one, and once;
* nothing but `child` and `next` has changed;
* where a node is linked to depends on the parents alone;
* linking again changes nothing. -/
theorem relink_chains (hclosed : forest.Closed) :
    ∃ linked, forest.relink = .ok linked ∧
      (∀ p, forest.FindsFamily linked (some p) (linked.walkChildren p)) ∧
      forest.FindsFamily linked none linked.walkTop ∧
      linked.chains.flatten.Perm (List.range forest.size) ∧
      linked.map Node.unlinked = forest.map Node.unlinked ∧
      (∀ forest' : Forest, forest'.map Node.parent = forest.map Node.parent →
        ∃ linked', forest'.relink = .ok linked' ∧
          linked'.map Node.place = linked.map Node.place) ∧
      linked.relink = .ok linked := by
  refine ⟨forest.familyLinked, relink_eq hclosed, fun p => ?_, ?_, chains_perm hclosed,
    forest.map_unlinked_familyLinked, fun forest' h => ?_, ?_⟩
  · exact findsFamily_of_yields (walkChildren_yields hclosed p)
  · exact findsFamily_of_yields forest.walkTop_yields
  · refine ⟨forest'.familyLinked, relink_eq (hclosed.of_map_parent h), ?_⟩
    exact map_place_familyLinked (size_of_map_parent h) (parent?_of_map_parent h)
  · rw [relink_eq hclosed.familyLinked, familyLinked_familyLinked]

/-- Two nodes in a circle with a node under them, a node that is its own parent,
two nodes at the top level with children stored before and behind them, and
links from before. -/
def tangled : Forest := #[
  { Node.fresh "left" (some 3) 0 with child := some 0, next := some 9 },
  Node.fresh "early" (some 4) 1,
  { Node.fresh "self" (some 2) 2 with next := some 2 },
  Node.fresh "right" (some 0) 3,
  { Node.fresh "group" none 1 with child := some 7, length := 4 },
  Node.fresh "late" (some 4) 2,
  { Node.fresh "leaf" (some 5) 2 with success := true },
  { Node.fresh "other" none 5 with child := some 1 },
  { Node.fresh "caught" (some 3) 3 with removed := true }]

/-- The hypothesis holds of `tangled`, where parents lead around in circles and
the links from before are wrong. Each of its nine slots is in one of the
chains. -/
theorem relink_chains_tangled :
    tangled.Closed ∧ ∃ linked, tangled.relink = .ok linked ∧
      linked.chains = [[4, 7], [3], [], [2], [0, 8], [1, 5], [6], [], [], []] ∧
      tangled.FindsFamily linked (some 3) (linked.walkChildren 3) ∧
      linked.chains.flatten.Perm (List.range 9) ∧ linked.relink = .ok linked := by
  have hclosed : tangled.Closed := by decide
  obtain ⟨linked, hlinked, hchildren, -, hperm, -, -, hagain⟩ := relink_chains hclosed
  have hchains : tangled.relink.map chains =
      .ok [[4, 7], [3], [], [2], [0, 8], [1, 5], [6], [], [], []] := by decide +kernel
  rw [hlinked] at hchains
  exact ⟨hclosed, linked, hlinked, Except.ok.inj hchains, hchildren 3, hperm, hagain⟩

end ParseForest.Forest
