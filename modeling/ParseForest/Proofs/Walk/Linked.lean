import ParseForest.Proofs.Walk

/-!
# `ParseForest.Proofs.Walk.Linked`: walks along links that the parents imply

In a linked forest the walk along the top level finds the slots without a
parent, in order, and the walk below a slot that is not above itself finds the
slots that have it above them, each once (`Forest.exists_listedBelow`). What
makes no slot come twice is that no two children of one slot have anything below
them in common.

`Forest.walkAll_perm` puts the walks together: if no slot is above itself, every
slot is found once, from the top level on.
-/

set_option autoImplicit false

namespace ParseForest.Forest

variable {forest : Forest} {parent : Option NodeId} {ids : List NodeId}
  {below : NodeId → List NodeId} {c j k t : NodeId}

/-! ### Along siblings -/

/-- The first slot at the top level is the first of the family there. -/
theorem topSlot?_eq_head? (forest : Forest) : forest.topSlot? = (forest.family none).head? := by
  rw [topSlot?, family, List.head?_filter]
  have hparent : ∀ k (hk : k < forest.size),
      forest[k].parent.isNone = decide (forest.parent? k = none) := by
    intro k hk
    rw [parent?_eq (Array.getElem?_eq_getElem hk)]
    cases forest[k].parent <;> rfl
  refine Option.ext fun k => ?_
  rw [List.find?_range_eq_some, Array.findIdx?_eq_some_iff_getElem, List.mem_range]
  constructor
  · rintro ⟨hk, hnone, hbefore⟩
    refine ⟨(hparent k hk).symm.trans hnone, hk, fun j hj => ?_⟩
    have := hbefore j hj
    rw [hparent j (Nat.lt_trans hj hk)] at this
    simpa using this
  · rintro ⟨hnone, hk, hbefore⟩
    refine ⟨hk, (hparent k hk).trans hnone, fun j hj => ?_⟩
    have := hbefore j hj
    rw [hparent j (Nat.lt_trans hj hk)]
    simpa using this

/-- Setting the links changes no family. -/
theorem familyLinked_family (forest : Forest) (parent : Option NodeId) :
    forest.familyLinked.family parent = forest.family parent :=
  family_congr forest.size_familyLinked forest.parent?_familyLinked parent

/-- In a linked forest the child link of a slot leads to its first child. -/
theorem child_familyLinked (hk : k < forest.size) :
    forest.familyLinked[k]?.bind Node.child = forest.firstChild? k := by
  rw [getElem?_familyLinked, Array.getElem?_eq_getElem hk]
  rfl

/-- The walk along the top level finds the slots without a parent, and ends,
also where other slots lead around in circles. -/
theorem walkTop_yields (forest : Forest) :
    Walk.Yields forest.familyLinked forest.familyLinked.walkTop (forest.family none) := by
  rw [walkTop, topSlot?_eq_head?, familyLinked_family]
  exact (forest.row_family none).yields

/-- The items of that walk are all the slots without a parent, since its bound
is large enough for them. -/
theorem items_walkTop (forest : Forest) :
    Walk.items forest.familyLinked forest.familyLinked.walkTop = forest.family none := by
  refine forest.walkTop_yields.items_eq ?_
  show _ ≤ forest.familyLinked.size
  rw [size_familyLinked]
  exact forest.length_family_le none

/-! ### Below a slot -/

/-- The list holds what is below a slot, in the order in which it is found from
the first child of the slot on. -/
structure ListedBelow (forest : Forest) (k : NodeId) (ids : List NodeId) : Prop where
  spread : forest.familyLinked.Spread (forest.firstChild? k) ids
  nodup : ids.Nodup
  mem_iff : ∀ j, j ∈ ids ↔ forest.wayUp.Above k j

/-- The slot together with what is below it. -/
theorem ListedBelow.mem_cons_iff (h : forest.ListedBelow k ids) :
    j ∈ k :: ids ↔ forest.wayUp.AtOrAbove k j := by
  rw [List.mem_cons, h.mem_iff, WayUp.atOrAbove_iff, eq_comm]

/-- With what is below them, the members of a family are everything at or below
one of them. -/
theorem mem_flatMap_family (hbelow : ∀ c ∈ forest.family parent, forest.ListedBelow c (below c)) :
    j ∈ (forest.family parent).flatMap (fun c => c :: below c) ↔
      ∃ c ∈ forest.family parent, forest.wayUp.AtOrAbove c j := by
  rw [List.mem_flatMap]
  exact exists_congr fun c => and_congr_right fun hc => (hbelow c hc).mem_cons_iff

/-- No two members of a family have anything at or below them in common. Of two
slots above a third one is above the other, and siblings never are, unless they
are on a cycle. -/
theorem nodup_flatMap_family (hbelow : ∀ c ∈ forest.family parent, forest.ListedBelow c (below c))
    (hself : ∀ c ∈ forest.family parent, ¬ forest.wayUp.Above c c) :
    ((forest.family parent).flatMap fun c => c :: below c).Nodup := by
  rw [List.nodup_flatMap]
  constructor
  · intro c hc
    refine List.nodup_cons.2 ⟨fun hmem => hself c hc ?_, (hbelow c hc).nodup⟩
    exact ((hbelow c hc).mem_iff c).1 hmem
  · refine (forest.family_pairwise parent).imp_of_mem fun {c d} hc hd hlt => ?_
    have hup : forest.parent? c = forest.parent? d :=
      (mem_family.1 hc).2.trans (mem_family.1 hd).2.symm
    intro j hjc hjd
    have hatc := (hbelow c hc).mem_cons_iff.1 hjc
    have hatd := (hbelow d hd).mem_cons_iff.1 hjd
    -- Of two slots at or above a third one is at or above the other, and siblings never are.
    rcases hatc.total hatd with hdc | hcd
    · rcases WayUp.atOrAbove_iff.1 hdc with heq | habove
      · exact Nat.ne_of_lt hlt heq.symm
      · exact WayUp.not_above_of_up_eq hup.symm (hself d hd) habove
    · rcases WayUp.atOrAbove_iff.1 hcd with heq | habove
      · exact Nat.ne_of_lt hlt heq
      · exact WayUp.not_above_of_up_eq hup (hself c hc) habove

/-- A family with what is below its members, in order, is what the link to the
first of them leads to. -/
theorem spread_family (hbelow : ∀ c ∈ forest.family parent, forest.ListedBelow c (below c)) :
    forest.familyLinked.Spread (forest.family parent).head?
      ((forest.family parent).flatMap fun c => c :: below c) := by
  refine (forest.row_family parent).spread fun c hc => ?_
  rw [child_familyLinked (mem_family.1 hc).1]
  exact (hbelow c hc).spread

/-- What is below a slot that is not above itself can be listed. The induction
goes up from the slots with nothing below them, and strings together one list
for every child. -/
theorem exists_listedBelow (hk : ¬ forest.wayUp.Above k k) :
    ∃ ids, forest.ListedBelow k ids := by
  refine WayUp.induction_down forest.wayUp_within
    (motive := fun k => ∃ ids, forest.ListedBelow k ids) ?_ k hk
  intro k hk ih
  -- One list for every child, so that they can be strung together.
  have hlisted : ∀ c, ∃ ids, c ∈ forest.family (some k) → forest.ListedBelow c ids := by
    intro c
    by_cases hc : c ∈ forest.family (some k)
    · obtain ⟨ids, hids⟩ := ih c (mem_family_some.1 hc)
      exact ⟨ids, fun _ => hids⟩
    · exact ⟨[], fun h => absurd h hc⟩
  choose below hbelow using hlisted
  refine ⟨_, spread_family hbelow, ?_, fun j => ?_⟩
  · refine nodup_flatMap_family hbelow fun c hc => ?_
    exact WayUp.not_above_self_of_up (mem_family_some.1 hc) hk
  · rw [mem_flatMap_family hbelow, WayUp.above_iff_exists_down]
    simp only [mem_family_some]

/-- No more is below a slot than there are slots. -/
theorem ListedBelow.length_le (h : forest.ListedBelow k ids) : ids.length ≤ forest.size :=
  length_le_size h.nodup fun j hj => lt_size_of_above ((h.mem_iff j).1 hj)

/-- What is below a slot is what the walk below the slot finds, and then the
walk ends. -/
theorem ListedBelow.walkBelow_yields (h : forest.ListedBelow k ids) (hk : k < forest.size) :
    Walk.Yields forest.familyLinked (forest.familyLinked.walkBelow k) ids := by
  have hend : Walk.Yields forest.familyLinked (⟨[]⟩ : SubtreeWalk) [] := .nil rfl
  have hyields := h.spread.yields hend
  rw [List.append_nil, List.append_nil] at hyields
  rw [walkBelow, child_familyLinked hk]
  exact hyields

/-- The items of the walk below a slot are all that is below it. The bound is
that of a binary tree, and no more nodes are found than there are. -/
theorem ListedBelow.items_walkBelow (h : forest.ListedBelow k ids) (hk : k < forest.size) :
    Walk.items forest.familyLinked (forest.familyLinked.walkBelow k) = ids := by
  refine (h.walkBelow_yields hk).items_eq ?_
  show ids.length ≤ (forest.familyLinked.walkBelow k).stack.length * 2 ^ forest.familyLinked.size
  rw [walkBelow, child_familyLinked hk, size_familyLinked]
  cases hchild : forest.firstChild? k with
  | none =>
    have hspread := h.spread
    rw [hchild] at hspread
    cases hspread
    exact Nat.zero_le _
  | some c =>
    -- The bound is that of a binary tree; no more nodes are found than there are.
    have hlength := h.length_le
    have hpow := Nat.lt_two_pow_self (n := forest.size)
    simp only [Option.toList_some, List.length_singleton, Nat.one_mul]
    omega

/-- The walk below a slot that is not above itself finds what is below the
slot. -/
theorem listedBelow_walkBelow (hk : ¬ forest.wayUp.Above k k) (hlt : k < forest.size) :
    forest.ListedBelow k (Walk.items forest.familyLinked (forest.familyLinked.walkBelow k)) := by
  obtain ⟨ids, hids⟩ := exists_listedBelow hk
  rw [hids.items_walkBelow hlt]
  exact hids

/-- The walk below a slot finds each child and then what the walk below the
child finds. It is the order of a recursion, although the walk itself keeps a
stack. -/
theorem items_walkBelow_eq_flatMap (hk : ¬ forest.wayUp.Above k k) (hlt : k < forest.size) :
    Walk.items forest.familyLinked (forest.familyLinked.walkBelow k) =
      (forest.family (some k)).flatMap fun c =>
        c :: Walk.items forest.familyLinked (forest.familyLinked.walkBelow c) := by
  refine (listedBelow_walkBelow hk hlt).spread.unique (spread_family fun c hc => ?_)
  have hparent := mem_family_some.1 hc
  exact listedBelow_walkBelow (WayUp.not_above_self_of_up hparent hk) (lt_size_of_parent hparent)

/-! ### The whole forest -/

/-- All nodes that walks come to: those at the top level, each with what is
below it. -/
def walkAll (forest : Forest) : List NodeId :=
  (Walk.items forest forest.walkTop).flatMap fun t =>
    t :: Walk.items forest (forest.walkBelow t)

/-- What is below a node at the top level can be listed, whatever circles there
are elsewhere. A slot without a parent is above itself in no forest. -/
theorem listedBelow_top (ht : t ∈ forest.family none) :
    forest.ListedBelow t
      (Walk.items forest.familyLinked (forest.familyLinked.walkBelow t)) := by
  obtain ⟨hlt, hparent⟩ := mem_family.1 ht
  exact listedBelow_walkBelow (WayUp.not_above_of_up_none hparent) hlt

/-- Walks come to what is at or below a node at the top level, in the order of
the links. -/
theorem spread_walkAll (forest : Forest) :
    forest.familyLinked.Spread (forest.family none).head? forest.familyLinked.walkAll := by
  rw [walkAll, items_walkTop]
  exact spread_family fun t ht => listedBelow_top ht

/-- Walks come to a slot exactly if it is at the top level or has such a slot
above it. -/
theorem mem_walkAll :
    j ∈ forest.familyLinked.walkAll ↔ ∃ t ∈ forest.family none, forest.wayUp.AtOrAbove t j := by
  rw [walkAll, items_walkTop]
  exact mem_flatMap_family fun t ht => listedBelow_top ht

/-- Walks come to slots of the array only. -/
theorem lt_size_of_mem_walkAll (hj : j ∈ forest.familyLinked.walkAll) : j < forest.size := by
  obtain ⟨t, ht, htj⟩ := mem_walkAll.1 hj
  rcases WayUp.atOrAbove_iff.1 htj with rfl | habove
  · exact (mem_family.1 ht).1
  · exact lt_size_of_above habove

/-- Walks come to no slot twice. -/
theorem nodup_walkAll (forest : Forest) : forest.familyLinked.walkAll.Nodup := by
  rw [walkAll, items_walkTop]
  refine nodup_flatMap_family (fun t ht => listedBelow_top ht) fun t ht => ?_
  exact WayUp.not_above_of_up_none (mem_family.1 ht).2

/-- Every slot is at or below one at the top level, if no slot is above itself.
The induction goes down: a slot with a parent is below what its parent is
below. -/
theorem exists_top (hclosed : forest.Closed)
    (hacyclic : forest.wayUp.Acyclic) (hk : k < forest.size) :
    ∃ t ∈ forest.family none, forest.wayUp.AtOrAbove t k := by
  refine hacyclic.induction forest.wayUp_within
    (motive := fun k => k < forest.size →
      ∃ t ∈ forest.family none, forest.wayUp.AtOrAbove t k) ?_ k hk
  intro k ih hk
  cases hp : forest.parent? k with
  | none => exact ⟨k, mem_family.2 ⟨hk, hp⟩, WayUp.AtOrAbove.refl k⟩
  | some p =>
    obtain ⟨t, ht, htp⟩ := ih p hp (hclosed k p hp)
    exact ⟨t, ht, ((WayUp.above_iff_of_up hp).2 htp).atOrAbove⟩

/-- The slots at the top level, each with what the walk below it finds, are all
slots, and none comes twice. All these walks end. -/
theorem walkAll_perm (hclosed : forest.Closed)
    (hacyclic : forest.wayUp.Acyclic) :
    Walk.Yields forest.familyLinked forest.familyLinked.walkTop
        (Walk.items forest.familyLinked forest.familyLinked.walkTop) ∧
      (∀ t ∈ Walk.items forest.familyLinked forest.familyLinked.walkTop,
        Walk.Yields forest.familyLinked (forest.familyLinked.walkBelow t)
          (Walk.items forest.familyLinked (forest.familyLinked.walkBelow t))) ∧
      forest.familyLinked.walkAll.Perm (List.range forest.size) := by
  rw [items_walkTop]
  refine ⟨forest.walkTop_yields, fun t ht => ?_, ?_⟩
  · exact (listedBelow_top ht).walkBelow_yields (mem_family.1 ht).1
  · refine (List.perm_ext_iff_of_nodup forest.nodup_walkAll List.nodup_range).2 fun j => ?_
    rw [List.mem_range]
    constructor
    · exact lt_size_of_mem_walkAll
    · exact fun hj => mem_walkAll.2 (exists_top hclosed hacyclic hj)

end ParseForest.Forest
