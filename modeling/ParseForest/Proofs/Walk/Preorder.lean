import ParseForest.Proofs.Compaction.Kept
import ParseForest.Proofs.Walk.Linked

/-!
# `ParseForest.Proofs.Walk.Preorder`: arrays in the order of a walk

A matcher appends a node when it starts to match a rule, so the parent of a node
is the node appended just before it, or is above that. `WayUp.Preordered` says
so of any way up. Two things follow:

* a slot comes behind everything above it (`WayUp.Preordered.le_of_atOrAbove`);
* what is at or below a slot is a run of the array that starts with the slot
  (`WayUp.Preordered.atOrAbove_between`).

So of two siblings the first comes with all that is below it before the second,
and a walk finds the slots in order (`Forest.walkAll_eq_range`). Both properties
are left when nodes are taken out and those below them are handed to the nearest
one above, whichever they are (`Forest.UnderNearest.preordered`).
-/

set_option autoImplicit false

namespace ParseForest

namespace WayUp

variable {up : WayUp} {a k j i : Nat}

/-- A slot with one directly above it comes just behind that one, or behind a
slot that is below it. -/
def Preordered (up : WayUp) : Prop :=
  ∀ k p : Nat, up k = some p → ∃ j : Nat, j + 1 = k ∧ up.AtOrAbove p j

namespace Preordered

/-- What is above a slot is at or above the slot before it. -/
theorem exists_before (h : up.Preordered) (hak : up.Above a k) :
    ∃ j : Nat, j + 1 = k ∧ up.AtOrAbove a j := by
  obtain ⟨p, hp, hap⟩ := above_iff.1 hak
  obtain ⟨j, hj, hpj⟩ := h k p hp
  exact ⟨j, hj, hpj.trans hap⟩

/-- A slot comes behind everything above it. The induction is on the slot, and
goes by way of the one just before it. -/
theorem le_of_atOrAbove (h : up.Preordered) (hak : up.AtOrAbove a k) : a ≤ k := by
  induction k using Nat.strongRecOn with
  | ind k ih =>
    rcases atOrAbove_iff.1 hak with rfl | hak
    · exact Nat.le_refl a
    · obtain ⟨j, hj, haj⟩ := h.exists_before hak
      have := ih j (by omega) haj
      omega

/-- A slot above another one comes before it and is another slot. -/
theorem lt_of_above (h : up.Preordered) (hak : up.Above a k) : a < k := by
  obtain ⟨j, hj, haj⟩ := h.exists_before hak
  have := h.le_of_atOrAbove haj
  omega

/-- In this order no slot is above itself, since it does not come behind
itself. -/
theorem acyclic (h : up.Preordered) : up.Acyclic :=
  fun k hk => Nat.lt_irrefl k (h.lt_of_above hk)

/-- Between a slot and one below it there are only slots below it. So what is at
or below a slot is one stretch of the array. -/
theorem atOrAbove_between (h : up.Preordered) (haj : up.AtOrAbove a j) (hai : a ≤ i)
    (hij : i ≤ j) : up.AtOrAbove a i := by
  induction j using Nat.strongRecOn with
  | ind j ih =>
    rcases atOrAbove_iff.1 haj with rfl | habove
    · have : i = a := by omega
      rw [this]
      exact AtOrAbove.refl a
    · rcases Nat.lt_or_ge i j with hlt | hge
      · obtain ⟨j', hj', haj'⟩ := h.exists_before habove
        exact ih j' (by omega) haj' (by omega)
      · have : i = j := by omega
        rw [this]
        exact haj

end Preordered

end WayUp

namespace Forest

variable {forest : Forest} {parent : Option NodeId} {below : NodeId → List NodeId}
  {f : NodeId → Node → Node} {up : WayUp} {c d j k : NodeId}

/-! ### Walks -/

/-- What is at or below a slot comes before the siblings behind the slot. -/
theorem lt_of_atOrAbove_of_sibling (h : forest.wayUp.Preordered)
    (hsiblings : forest.parent? c = forest.parent? d) (hcd : c < d)
    (hcj : forest.wayUp.AtOrAbove c j) : j < d := by
  rcases Nat.lt_or_ge j d with hlt | hge
  · exact hlt
  · -- Otherwise the sibling itself would be below the slot.
    rcases WayUp.atOrAbove_iff.1 (h.atOrAbove_between hcj (Nat.le_of_lt hcd) hge) with heq | habove
    · exact absurd heq (Nat.ne_of_lt hcd)
    · exact absurd habove (WayUp.not_above_of_up_eq hsiblings (h.acyclic c))

/-- The members of a family, each with what is below it, are in order. Inside a
member's part that is assumed, and between two parts it is what
`Forest.lt_of_atOrAbove_of_sibling` says. -/
theorem pairwise_flatMap_family (h : forest.wayUp.Preordered)
    (hbelow : ∀ c ∈ forest.family parent, forest.ListedBelow c (below c))
    (hsorted : ∀ c ∈ forest.family parent, (below c).Pairwise (· < ·)) :
    ((forest.family parent).flatMap fun c => c :: below c).Pairwise (· < ·) := by
  rw [List.pairwise_flatMap]
  constructor
  · intro c hc
    refine List.pairwise_cons.2 ⟨fun j hj => ?_, hsorted c hc⟩
    exact h.lt_of_above (((hbelow c hc).mem_iff j).1 hj)
  · refine (forest.family_pairwise parent).imp_of_mem fun {c d} hc hd hcd => ?_
    intro i hi j hj
    have hci := (hbelow c hc).mem_cons_iff.1 hi
    have hdj := (hbelow d hd).mem_cons_iff.1 hj
    have hsiblings := (mem_family.1 hc).2.trans (mem_family.1 hd).2.symm
    have hid := lt_of_atOrAbove_of_sibling h hsiblings hcd hci
    exact Nat.lt_of_lt_of_le hid (h.le_of_atOrAbove hdj)

/-- The walk below a slot finds the slots in order. The induction goes up from
the slots with nothing below them. -/
theorem pairwise_walkBelow (h : forest.wayUp.Preordered) (hk : k < forest.size) :
    (Walk.items forest.familyLinked (forest.familyLinked.walkBelow k)).Pairwise (· < ·) := by
  refine WayUp.induction_down forest.wayUp_within (motive := fun k => k < forest.size →
    (Walk.items forest.familyLinked (forest.familyLinked.walkBelow k)).Pairwise (· < ·)) ?_ k
    (h.acyclic k) hk
  intro k hself ih hk
  rw [items_walkBelow_eq_flatMap hself hk]
  refine pairwise_flatMap_family h (fun c hc => ?_) fun c hc => ?_
  · exact listedBelow_walkBelow (h.acyclic c) (mem_family.1 hc).1
  · exact ih c (mem_family_some.1 hc) (mem_family.1 hc).1

/-- In an array in the order of a walk, the walk finds the slots in the order of
the array. They come in order and are all of them, which leaves one list
only. -/
theorem walkAll_eq_range (hclosed : forest.Closed) (h : forest.wayUp.Preordered) :
    forest.familyLinked.walkAll = List.range forest.size := by
  refine (walkAll_perm hclosed h.acyclic).2.2.eq_of_pairwise ?_ ?_ List.pairwise_lt_range
  · intro i j _ _ hij hji
    exact absurd hij (Nat.lt_asymm hji)
  · rw [walkAll, items_walkTop]
    refine pairwise_flatMap_family h (fun t ht => listedBelow_top ht) fun t ht => ?_
    exact pairwise_walkBelow h (mem_family.1 ht).1

/-! ### Taking nodes out -/

/-- The nodes that stay of an array in the order of a walk are in that order
again, under the nearest ones above them. -/
theorem UnderNearest.preordered (h : forest.UnderNearest up f) (hwithin : up.Within forest.size)
    (hup : up.Preordered) : (forest.keptWhere f).wayUp.Preordered := by
  intro i' p' hp'
  have hi' := lt_size_of_parent hp'
  rw [size_keptWhere] at hi'
  obtain ⟨k, hk, rfl⟩ := exists_newSlot_eq forest hi'
  have hparent := (h.parent?_newSlot hk).symm.trans hp'
  obtain ⟨a, hnearest, rfl⟩ := Option.map_eq_some_iff.1 hparent
  obtain ⟨ha, hak⟩ := nearestKept?_eq_some hnearest
  have hslots := newSlot_lt ha (hup.lt_of_above hak)
  -- Of the nodes that stay, the one before `k` lies between `a` and `k`, so it is at or below `a`.
  obtain ⟨i, hi⟩ := Nat.exists_eq_succ_of_ne_zero (Nat.ne_zero_of_lt hslots)
  have hsize : i < forest.newSlot forest.size := Nat.lt_of_succ_lt (hi ▸ hi')
  obtain ⟨j, hj, rfl⟩ := exists_newSlot_eq forest hsize
  have hjk : j < k := lt_of_newSlot_lt (hi ▸ Nat.lt_succ_self _)
  have haj : a ≤ j := by
    rcases Nat.lt_or_ge j a with hlt | hge
    · rw [hi] at hslots
      exact absurd (newSlot_lt hj hlt) (Nat.not_lt_of_le (Nat.le_of_lt_succ hslots))
    · exact hge
  refine ⟨forest.newSlot j, hi.symm, ?_⟩
  rcases WayUp.atOrAbove_iff.1 (hup.atOrAbove_between hak.atOrAbove haj (Nat.le_of_lt hjk)) with
    rfl | habove
  · exact WayUp.AtOrAbove.refl _
  · exact ((h.above_iff hwithin hup.acyclic ha hj).2 habove).atOrAbove

end Forest

end ParseForest
