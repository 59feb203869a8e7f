import ParseForest.Proofs.Packing

/-!
# `ParseForest.Proofs.Packing.Cancellation`: collecting nodes that are removed leave no trace

A collecting node that is to be removed takes in its siblings only to hand them
back. `Forest.withoutCollectors` is the array in which no node collects from the
start, the root apart, for which the flag means nothing. If all collecting nodes
are removed, the same comes of both arrays:

* the siblings that a slot goes under are removed, so the nearest slot above it
  that stays is the one it had before (`Forest.nearestKept?_adoptedParent`);
* only collecting nodes change their span, and none of them stays
  (`Forest.packedNode_of_plain`);
* the sums that are formed are parts of the sums formed without collecting nodes
  (`Forest.SumsFit.of_withoutCollectors`), so none of them is too long if those
  are not.

`Forest.packed_withoutCollectors` compares the packed trees, and
`Forest.pack_withoutCollectors` the two runs.
-/

set_option autoImplicit false

namespace ParseForest.Forest

variable {forest : Forest} {visited : NodeId → Bool} {node : Node} {c k p : NodeId}

/-- The node of a slot with its flag for collecting cleared, unless it is the
root. -/
def clearedNode (k : NodeId) (node : Node) : Node :=
  if k = NodeId.root then node else { node with collects := false }

/-- The array with the flag for collecting cleared everywhere but at the
root. -/
def withoutCollectors (forest : Forest) : Forest := forest.mapIdx clearedNode

/-- All collecting nodes but the root are to be removed. -/
def CollectorsRemoved (forest : Forest) : Prop :=
  ∀ k, k ≠ NodeId.root → forest.collectsAt k = true → forest.keptAt k = false

instance (forest : Forest) : Decidable forest.CollectorsRemoved :=
  decidable_of_iff
    (∀ k < forest.size, k ≠ NodeId.root → forest.collectsAt k = true →
      forest.keptAt k = false) <| by
    refine ⟨fun h k hk hcollects => ?_, fun h k _ => h k⟩
    rcases Nat.lt_or_ge k forest.size with hlt | hge
    · exact h k hlt hk hcollects
    · simp [collectsAt, Array.getElem?_eq_none hge] at hcollects

/-! ### The array without collecting nodes -/

/-- Clearing the flag changes no parent. -/
theorem clearedNode_parent (k : NodeId) (node : Node) :
    (clearedNode k node).parent = node.parent := by
  rw [clearedNode]
  split <;> rfl

/-- Clearing the flag for collecting leaves that for removal as it was. -/
theorem clearedNode_removed (k : NodeId) (node : Node) :
    (clearedNode k node).removed = node.removed := by
  rw [clearedNode]
  split <;> rfl

/-- A node without the flag is not changed by clearing it. -/
theorem clearedNode_of_plain (hplain : node.collects = false) (k : NodeId) :
    clearedNode k node = node := by
  rw [clearedNode, ← hplain, ite_self]

/-- What a slot holds when the flags are cleared: the same node, without the
flag unless it is the root. -/
theorem getElem?_withoutCollectors (forest : Forest) (k : NodeId) :
    forest.withoutCollectors[k]? = forest[k]?.map (clearedNode k) := by
  rw [withoutCollectors, Array.getElem?_mapIdx]

/-- Clearing flags takes out no slot. -/
@[simp] theorem size_withoutCollectors (forest : Forest) :
    forest.withoutCollectors.size = forest.size :=
  Array.size_mapIdx

/-- Clearing flags changes no parent. -/
@[simp] theorem parent?_withoutCollectors (forest : Forest) (k : NodeId) :
    forest.withoutCollectors.parent? k = forest.parent? k := by
  rw [parent?, getElem?_withoutCollectors, parent?]
  cases forest[k]? <;> simp [clearedNode_parent]

/-- When the flags are cleared, nothing but the root can collect. -/
theorem collectsAt_withoutCollectors (hk : k ≠ NodeId.root) :
    forest.withoutCollectors.collectsAt k = false := by
  rw [collectsAt, getElem?_withoutCollectors]
  cases forest[k]? <;> simp [clearedNode, hk]

/-- Clearing the flags for collecting leaves the same nodes to stay. -/
theorem keptAt_withoutCollectors (forest : Forest) :
    forest.withoutCollectors.keptAt = forest.keptAt :=
  keptAt_of_map forest.getElem?_withoutCollectors clearedNode_removed

/-- The same slots are under each parent. -/
theorem family_withoutCollectors (forest : Forest) (parent : Option NodeId) :
    forest.withoutCollectors.family parent = forest.family parent :=
  family_congr forest.size_withoutCollectors forest.parent?_withoutCollectors parent

/-- Where nothing but the root collects, all slots are walked. -/
theorem walked_withoutCollectors (forest : Forest) (p : NodeId) :
    forest.withoutCollectors.Walked p := by
  by_cases hp : p = NodeId.root
  · exact Or.inl hp
  · refine Or.inr ⟨by simp [collectsAt_withoutCollectors hp], fun a ha _ => ?_⟩
    simp [collectsAt_withoutCollectors ha]

/-- A slot with a parent does not collect any more, since it is not the root. -/
theorem collectsAt_withoutCollectors_of_parent (h : forest.IsTree)
    (hp : forest.parent? k = some p) : forest.withoutCollectors.collectsAt k = false :=
  collectsAt_withoutCollectors (h.ne_root_of_parent hp)

/-- An array that is accepted is accepted without collecting nodes. The first
two checks do not look at the flag, and the third has nothing to object to. -/
theorem check_withoutCollectors (h : forest.check = .ok ()) :
    forest.withoutCollectors.check = .ok () := by
  obtain ⟨htree, -⟩ := check_eq_ok_iff.1 h
  have hup : forest.withoutCollectors.wayUp = forest.wayUp :=
    funext forest.parent?_withoutCollectors
  refine check_eq_ok_iff.2 ⟨⟨fun k p hp => ?_, ?_, fun k hk => ?_⟩, ?_⟩
  · rw [parent?_withoutCollectors] at hp
    rw [size_withoutCollectors]
    exact htree.closed k p hp
  · rw [parent?_withoutCollectors]
    exact htree.root_parent
  · rw [size_withoutCollectors] at hk
    rw [hup]
    exact htree.root_atOrAbove k hk
  · rintro c ⟨hcollects, p, hp, -⟩
    rw [parent?_withoutCollectors] at hp
    simp [collectsAt_withoutCollectors_of_parent htree hp] at hcollects

/-! ### Parents -/

/-- Where nothing but the root collects, no parent changes. -/
theorem adoptedParent_withoutCollectors (h : forest.IsTree) (visited : NodeId → Bool) :
    forest.withoutCollectors.adoptedParent visited = forest.wayUp := by
  have hup : forest.withoutCollectors.wayUp = forest.wayUp :=
    funext forest.parent?_withoutCollectors
  rw [← hup]
  refine adoptedParent_eq_wayUp (fun c p hc => ?_) visited
  rw [parent?_withoutCollectors] at hc
  exact collectsAt_withoutCollectors_of_parent h hc

/-- If no collecting node stays, the nearest slot above a slot that does is the
same before adoption and after it. The way up after adoption makes a detour over
siblings, and these are all removed. -/
theorem nearestKept?_adoptedParent (h : forest.IsTree)
    (hremoved : ∀ c p, forest.parent? c = some p → forest.collectsAt c = true →
      forest.keptAt c = false) (visited : NodeId → Bool) (k : NodeId) :
    forest.nearestKept? (forest.adoptedParent visited) k =
      forest.nearestKept? forest.wayUp k := by
  have hwithin := forest.adoptedParent_within visited
  have hacyclic := adoptedParent_acyclic h.acyclic visited
  have hbefore := fun {j q} (hq : forest.parent? j = some q) =>
    nearestKept?_of_up forest.wayUp_within h.acyclic hq
  refine hacyclic.induction hwithin (motive := fun k =>
    forest.nearestKept? (forest.adoptedParent visited) k = forest.nearestKept? forest.wayUp k) ?_ k
  intro k ih
  cases hup : forest.adoptedParent visited k with
  | none =>
    -- A slot without a parent after adoption had none before.
    have hnone : forest.parent? k = none := by
      cases hp : forest.parent? k with
      | none => rfl
      | some p =>
        simp only [adoptedParent, hp] at hup
        split at hup <;> simp at hup
    rw [nearestKept?_of_up_none hup, nearestKept?_of_up_none hnone]
  | some q =>
    rw [nearestKept?_of_up hwithin hacyclic hup, ih q hup]
    rcases adoptedParent_cases hup with hq | ⟨p, hp, hqp, -, hcollects, -⟩
    · rw [hbefore hq]
    · -- The sibling is removed, and above it is what was above the slot.
      rw [hremoved q p hqp hcollects, if_neg (by simp), hbefore hqp, hbefore hp]

/-! ### Spans -/

/-- A node that does not collect changes nothing but its parent. -/
theorem packedNode_of_plain (hplain : node.collects = false) (k : NodeId) :
    forest.packedNode k node =
      { node with
        parent := (forest.nearestKept? (forest.adoptedParent forest.walked) k).map
          forest.newSlot } := by
  rw [packedNode]
  split <;> simp [adoptAmong, hplain]

/-- A node without a parent changes nothing at all but its parent. -/
theorem packedNode_of_parent_none (hparent : node.parent = none) (k : NodeId) :
    forest.packedNode k node =
      { node with
        parent := (forest.nearestKept? (forest.adoptedParent forest.walked) k).map
          forest.newSlot } := by
  simp [packedNode, hparent]

/-- Without collecting nodes, siblings that count are no shorter: those that
collected are counted as well. -/
theorem plainLength_le_withoutCollectors (forest : Forest) (ids : List NodeId) :
    forest.plainLength ids ≤ forest.withoutCollectors.plainLength ids := by
  induction ids with
  | nil => exact Nat.le_refl _
  | cons k ids ih =>
    rw [plainLength, plainLength, getElem?_withoutCollectors]
    cases forest[k]? with
    | none => exact Nat.add_le_add_left ih _
    | some node =>
      cases hcollects : node.collects
      · rw [Option.map_some, clearedNode_of_plain hcollects]
        exact Nat.add_le_add_left ih _
      · simp only [hcollects, if_true]
        omega

/-- The sums are no longer than without collecting nodes. So no sum is too long
if none is when more siblings count. -/
theorem SumsFit.of_withoutCollectors (h : forest.withoutCollectors.SumsFit) :
    forest.SumsFit := by
  intro p _
  have hp := h p (forest.walked_withoutCollectors p)
  rw [family_withoutCollectors] at hp
  exact Nat.lt_of_le_of_lt (forest.plainLength_le_withoutCollectors _) hp

/-! ### The packed trees -/

/-- The same tree is packed with collecting nodes that are removed and without
them. -/
theorem packed_withoutCollectors (h : forest.IsTree) (hremoved : forest.CollectorsRemoved) :
    forest.withoutCollectors.packed = forest.packed := by
  have hremovedAt : ∀ c p, forest.parent? c = some p → forest.collectsAt c = true →
      forest.keptAt c = false :=
    fun c _ hp => hremoved c (h.ne_root_of_parent hp)
  have hkeptAt := forest.keptAt_withoutCollectors
  have hnearest : ∀ k, forest.withoutCollectors.nearestKept?
      (forest.withoutCollectors.adoptedParent forest.withoutCollectors.walked) k =
        forest.nearestKept? (forest.adoptedParent forest.walked) k := by
    intro k
    rw [nearestKept?_adoptedParent h hremovedAt, adoptedParent_withoutCollectors h, nearestKept?,
      nearestKept?, hkeptAt, size_withoutCollectors]
  -- The same nodes stay in both arrays, so the two packed trees can be compared node by
  -- node.
  rw [packed, packed, keptWhere_of_map forest.size_withoutCollectors
    forest.getElem?_withoutCollectors clearedNode_removed]
  congr 1
  refine keptWhere_congr fun k node hnode hkept => ?_
  by_cases hk : k = NodeId.root
  · subst hk
    -- The root is the one node whose flag is not cleared, and it has no parent to be
    -- changed.
    have hparent : node.parent = none := (parent?_eq hnode).symm.trans h.root_parent
    have hcleared : clearedNode NodeId.root node = node := if_pos rfl
    rw [hcleared, packedNode_of_parent_none hparent, packedNode_of_parent_none hparent, hnearest,
      newSlot_of_keptAt hkeptAt]
  · -- The node stays, so it does not collect.
    have hplain : node.collects = false := by
      rw [← Bool.not_eq_true]
      intro hcollects
      have hgone := hremoved k hk ((collectsAt_eq hnode).trans hcollects)
      simp [keptAt_eq hnode, hkept] at hgone
    rw [clearedNode_of_plain hplain, packedNode_of_plain hplain, packedNode_of_plain hplain,
      hnearest, newSlot_of_keptAt hkeptAt]

/-- If all collecting nodes of an array that is accepted are to be removed, the
root apart, and the array can be packed with the flag for collecting cleared on
these nodes, then the array can be packed as it is, and the same array comes of
it. -/
theorem pack_withoutCollectors (forest : Forest) (haccepted : forest.inspect.answer = .ok ())
    (hremoved : forest.CollectorsRemoved)
    (hruns : ∀ fault, forest.withoutCollectors.pack forest.withoutCollectors.size ≠ .error fault) :
    ∃ out events events', forest.pack forest.size = .ok ⟨.ok out, events⟩ ∧
      forest.withoutCollectors.pack forest.withoutCollectors.size = .ok ⟨.ok out, events'⟩ := by
  rw [inspect_answer] at haccepted
  obtain ⟨htree, -⟩ := check_eq_ok_iff.1 haccepted
  have haccepted' := check_withoutCollectors haccepted
  have hfits : forest.withoutCollectors.SumsFit := by
    rcases pack_cases (Nat.le_refl forest.withoutCollectors.size)
      (by rwa [used_size, inspect_answer]) with ⟨-, hfits⟩ | ⟨hpack, -⟩
    · rwa [used_size] at hfits
    · exact absurd hpack (hruns _)
  obtain ⟨events', hpack'⟩ := pack_eq_ok_iff.2 ⟨Nat.le_refl forest.withoutCollectors.size,
    by rwa [used_size], by rwa [used_size], rfl⟩
  obtain ⟨events, hpack⟩ := pack_eq_ok_iff.2 ⟨Nat.le_refl forest.size, by rwa [used_size],
    by rw [used_size]; exact hfits.of_withoutCollectors, rfl⟩
  rw [used_size, packed_withoutCollectors htree hremoved] at hpack'
  rw [used_size] at hpack
  exact ⟨_, _, _, hpack, hpack'⟩

/-- A list with two collecting nodes in it and one behind it, all of them to be
removed. -/
def handedBack : Forest := #[
  { Node.fresh "root" none 0 with length := 5 },
  { Node.fresh "list" (some 0) 0 with length := 5 },
  { Node.fresh "first" (some 1) 0 with length := 2 },
  { Node.fresh "inner" (some 1) 2 with removed := true, collects := true },
  { Node.fresh "second" (some 1) 2 with length := 3 },
  { Node.fresh "outer" (some 1) 5 with removed := true, collects := true },
  { Node.fresh "all" (some 0) 5 with removed := true, collects := true }]

/-- The hypotheses hold of `handedBack`, where an inner collecting node is taken
in by an outer one, and both are to be removed. -/
theorem pack_withoutCollectors_handedBack :
    handedBack.inspect.answer = .ok () ∧ handedBack.CollectorsRemoved ∧
      (∀ fault, handedBack.withoutCollectors.pack handedBack.withoutCollectors.size ≠
        .error fault) ∧
      ∃ out events events', handedBack.pack handedBack.size = .ok ⟨.ok out, events⟩ ∧
        handedBack.withoutCollectors.pack handedBack.withoutCollectors.size =
          .ok ⟨.ok out, events'⟩ := by
  have haccepted : handedBack.inspect.answer = .ok () := by cbv
  have hremoved : handedBack.CollectorsRemoved := by decide
  have hpack : handedBack.withoutCollectors.pack handedBack.withoutCollectors.size =
      .ok ⟨.ok handedBack.withoutCollectors.packed, #[.packed 7 4]⟩ := by decide +kernel
  have hruns : ∀ fault, handedBack.withoutCollectors.pack handedBack.withoutCollectors.size ≠
      .error fault := by
    intro fault
    rw [hpack]
    simp only [ne_eq, reduceCtorEq, not_false_eq_true]
  exact ⟨haccepted, hremoved, hruns, pack_withoutCollectors handedBack haccepted hremoved hruns⟩

end ParseForest.Forest
