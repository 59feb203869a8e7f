import Mathlib.Data.List.Chain
import ParseForest.Proofs.Collecting.Run
import ParseForest.Proofs.Packing.Lineage

/-!
# `ParseForest.Proofs.Packing.Spans`: nodes lie within their parents

`Forest.LaidOut` says how a matcher that reads a text from left to right lays
its nodes out: a node that does not collect lies within its parent, siblings do
not overlap, those that a collecting node takes in leave no gaps, and collecting
nodes have no children yet. The spans of collecting nodes do not matter, since
adoption sets them.

Such an array can be packed, and what is packed is `Forest.Nested`: every node
lies within its parent.

* The siblings under one slot do not overlap and end within the root, so no sum
  of lengths is too long (`Forest.LaidOut.sumsFit`).
* After adoption a node lies within the collecting sibling that took it in
  (`Forest.LaidOut.within_collector`), and a collecting node that none took in
  within its parent (`Forest.LaidOut.within_parent`). So adoption leaves a
  nested forest (`Forest.LaidOut.nested_adoptedWhere`).
* Being within is passed on from link to link (`Forest.Nested.of_above`), so
  nodes may be taken out (`Forest.Nested.packed`).

`Forest.pack_nested` puts these together.
-/

set_option autoImplicit false

namespace ParseForest.Forest

variable {forest : Forest} {node parent : Node} {c k p first : NodeId}

/-- Every node lies within its parent. -/
def Nested (forest : Forest) : Prop :=
  ∀ k p, forest.parent? k = some p →
    forest.startAt p ≤ forest.startAt k ∧ forest.stopAt k ≤ forest.stopAt p

/-- The nodes lie in the text as a matcher leaves them. -/
structure LaidOut (forest : Forest) : Prop where
  /-- The end of the root is a position that 64 bits can name. -/
  root_fits : forest.stopAt NodeId.root < UInt64.size
  /-- A node that does not collect lies within its parent. -/
  plain_within : ∀ k p, forest.parent? k = some p → forest.collectsAt k = false →
    forest.startAt p ≤ forest.startAt k ∧ forest.stopAt k ≤ forest.stopAt p
  /-- Of two siblings in a row that do not collect, the first ends before the
  second starts. -/
  plain_ordered : ∀ p, (forest.plainChildren p forest.size).IsChain fun a b =>
    forest.stopAt a ≤ forest.startAt b
  /-- If a collecting sibling comes behind them, the first ends where the second
  starts. -/
  plain_adjoin : ∀ c p, forest.parent? c = some p → forest.collectsAt c = true →
    (forest.plainChildren p c).IsChain fun a b => forest.stopAt a = forest.startAt b
  /-- Collecting nodes have no children, except for the root. -/
  collector_leaf : ∀ k p, forest.parent? k = some p → p ≠ NodeId.root →
    forest.collectsAt p = false

/-- To ask something of all slots with parents, it is enough to ask it of those
in the array, because others have none. -/
theorem forall_parent_iff {P : NodeId → NodeId → Prop} :
    (∀ k < forest.size, ∀ p ∈ forest.parent? k, P k p) ↔
      ∀ k p, forest.parent? k = some p → P k p :=
  ⟨fun h k p hp => h k (lt_size_of_parent hp) p hp, fun h k _ p hp => h k p hp⟩

instance (forest : Forest) : Decidable forest.LaidOut :=
  decidable_of_iff
    (forest.stopAt NodeId.root < UInt64.size ∧
      (∀ k < forest.size, ∀ p ∈ forest.parent? k, forest.collectsAt k = false →
        forest.startAt p ≤ forest.startAt k ∧ forest.stopAt k ≤ forest.stopAt p) ∧
      (∀ k < forest.size, ∀ p ∈ forest.parent? k,
        (forest.plainChildren p forest.size).IsChain fun a b =>
          forest.stopAt a ≤ forest.startAt b) ∧
      (∀ c < forest.size, ∀ p ∈ forest.parent? c, forest.collectsAt c = true →
        (forest.plainChildren p c).IsChain fun a b => forest.stopAt a = forest.startAt b) ∧
      ∀ k < forest.size, ∀ p ∈ forest.parent? k, p ≠ NodeId.root →
        forest.collectsAt p = false) <| by
    simp only [forall_parent_iff]
    constructor
    · rintro ⟨hroot, hwithin, hordered, hadjoin, hleaf⟩
      refine ⟨hroot, hwithin, fun p => ?_, hadjoin, hleaf⟩
      cases hids : forest.plainChildren p forest.size with
      | nil => exact List.isChain_nil
      | cons k ids =>
        have hk : k ∈ forest.plainChildren p forest.size := by simp [hids]
        rw [← hids]
        exact hordered k p (mem_plainChildren.1 hk).2.1
    · rintro ⟨hroot, hwithin, hordered, hadjoin, hleaf⟩
      exact ⟨hroot, hwithin, fun _ p _ => hordered p, hadjoin, hleaf⟩

/-! ### Nested forests -/

namespace Nested

/-- A node lies within everything above it. The induction is on the way up, from
link to link. -/
theorem of_above (h : forest.Nested) {a : NodeId} (habove : forest.wayUp.Above a k) :
    forest.startAt a ≤ forest.startAt k ∧ forest.stopAt k ≤ forest.stopAt a := by
  induction habove using Relation.TransGen.head_induction_on with
  | single hlink => exact h _ _ hlink
  | head hlink _ ih =>
    obtain ⟨hstart, hstop⟩ := h _ _ hlink
    exact ⟨Nat.le_trans ih.1 hstart, Nat.le_trans hstop ih.2⟩

/-- The span of a node lies within that of its parent, if both have one. -/
theorem span_le (h : forest.Nested) (hnode : forest[k]? = some node)
    (hparent : forest[p]? = some parent) (hp : node.parent = some p) {inner outer : Span}
    (hinner : node.span = .ok inner) (houter : parent.span = .ok outer) :
    outer.start ≤ inner.start ∧ inner.stop ≤ outer.stop := by
  have hwithin := h k p ((parent?_eq hnode).trans hp)
  rw [stopAt, stopAt, startAt_eq hnode, lengthAt_eq hnode, startAt_eq hparent,
    lengthAt_eq hparent] at hwithin
  obtain ⟨hinnerStart, hinnerStop⟩ := Node.span_eq_ok_iff.1 hinner
  obtain ⟨houterStart, houterStop⟩ := Node.span_eq_ok_iff.1 houter
  rw [UInt64.le_iff_toNat_le, UInt64.le_iff_toNat_le, hinnerStart, houterStart, hinnerStop,
    houterStop]
  exact hwithin

end Nested

/-! ### Adoption -/

namespace LaidOut

/-- A slot with children is the root or does not collect. -/
theorem plain_of_child (h : forest.LaidOut) (hp : forest.parent? k = some p) :
    p = NodeId.root ∨ forest.collectsAt p = false := by
  by_cases hroot : p = NodeId.root
  · exact Or.inl hroot
  · exact Or.inr (h.collector_leaf k p hp hroot)

/-- Every slot with children is walked: what is above it has children too, so
none of that collects but perhaps the root. -/
theorem walked_of_child (h : forest.LaidOut) (hp : forest.parent? k = some p) :
    forest.Walked p := by
  refine (h.plain_of_child hp).imp_right fun hplain => ⟨by simp [hplain], fun a ha habove => ?_⟩
  -- What is above `p` has children too.
  obtain ⟨j, hj, -⟩ := WayUp.above_iff_exists_down.1 habove
  simp [h.collector_leaf j a hj ha]

/-- Nodes that do not collect end within the root, by way of the nodes above
them. -/
theorem stopAt_le_root (h : forest.LaidOut) (htree : forest.IsTree) (hk : k < forest.size)
    (hplain : k = NodeId.root ∨ forest.collectsAt k = false) :
    forest.stopAt k ≤ forest.stopAt NodeId.root := by
  refine htree.induction (motive := fun k => k = NodeId.root ∨ forest.collectsAt k = false →
    forest.stopAt k ≤ forest.stopAt NodeId.root) (fun _ => Nat.le_refl _) ?_ hk hplain
  rintro k p hp ih (rfl | hplain)
  · exact Nat.le_refl _
  · exact Nat.le_trans (h.plain_within k p hp hplain).2 (ih (h.plain_of_child hp))

/-- No sum of lengths is too long: siblings that do not overlap are together no
longer than the way to the end of the last one. -/
theorem sumsFit (h : forest.LaidOut) (htree : forest.IsTree) : forest.SumsFit := by
  intro p _
  rw [plainLength_family]
  cases hfirst : (forest.plainChildren p forest.size).head? with
  | none =>
    rw [List.head?_eq_none_iff.1 hfirst, plainLength]
    decide
  | some first =>
    obtain ⟨last, hlast, hreach⟩ := reach_le_of_isChain (h.plain_ordered p) hfirst
    obtain ⟨hlt, -, hplain⟩ := mem_plainChildren.1 (List.mem_of_getLast? hlast)
    have hroot := h.stopAt_le_root htree hlt (Or.inr hplain)
    have hfits := h.root_fits
    omega

/-- What a collecting node covers after adoption: from where the first sibling
starts, as much as the plain ones before it are long. -/
theorem span_collector (h : forest.LaidOut) (htree : forest.IsTree)
    (hp : forest.parent? c = some p) (hcollects : forest.collectsAt c = true)
    (hfirst : (forest.family (some p)).head? = some first) :
    (forest.adoptedWhere forest.walked).startAt c = forest.startAt first ∧
      (forest.adoptedWhere forest.walked).stopAt c =
        forest.startAt first + forest.plainLength (forest.plainChildren p c) := by
  have hwalked := h.walked_of_child hp
  have hv : forest.walked p = true := decide_eq_true hwalked
  have hfits : forest.plainLength (forest.plainChildren p c) < UInt64.size :=
    (h.sumsFit htree).before hwalked (Nat.le_of_lt (lt_size_of_parent hp))
  obtain ⟨hstart, hlength⟩ := span_adoptedWhere_of_collects hp hv hcollects hfirst hfits
  exact ⟨hstart, by rw [stopAt, hstart, hlength]⟩

/-- Before a collecting node, a sibling starts where the first one and as much
as those before it are long leads. This is where siblings without gaps are
needed. -/
theorem reach_plainChild (h : forest.LaidOut) (hk : forest.parent? k = some p)
    (hplain : forest.collectsAt k = false) (hc : forest.parent? c = some p)
    (hcollects : forest.collectsAt c = true) (hkc : k < c)
    (hfirst : (forest.plainChildren p c).head? = some first) :
    forest.startAt first + forest.plainLength (forest.plainChildren p k) = forest.startAt k := by
  have hlist := plainChildren_succ hk hplain
  obtain ⟨rest, hrest⟩ := forest.plainChildren_mono p (Nat.succ_le_of_lt hkc)
  have hadjoin := h.plain_adjoin c p hc hcollects
  rw [← hrest] at hadjoin
  have hhead : (forest.plainChildren p (k + 1)).head? = some first := by
    rw [← hrest, List.head?_append, Nat.succ_eq_add_one, hlist] at hfirst
    rw [hlist]
    simpa using hfirst
  obtain ⟨last, hlast, hreach⟩ := reach_eq_of_isChain hadjoin.left_of_append hhead
  obtain rfl : k = last := by
    rw [hlist, List.getLast?_concat] at hlast
    exact Option.some.inj hlast
  rw [plainLength_plainChildren_succ hk hplain, stopAt] at hreach
  omega

/-- A node lies within its parent when it has the span it is to have. A
collecting one covers the stretch from the first sibling to the last one before
it, and these lie within the parent. -/
theorem within_parent (h : forest.LaidOut) (htree : forest.IsTree)
    (hfollow : ∀ d, ¬ forest.CollectsFirst d) (hp : forest.parent? k = some p) :
    forest.startAt p ≤ (forest.adoptedWhere forest.walked).startAt k ∧
      (forest.adoptedWhere forest.walked).stopAt k ≤ forest.stopAt p := by
  cases hcollects : forest.collectsAt k with
  | false =>
    obtain ⟨hstart, hstop⟩ := span_adoptedWhere_of_plain forest.walked (Or.inr hcollects)
    rw [hstart, hstop]
    exact h.plain_within k p hp hcollects
  | true =>
    -- It covers the stretch from the first sibling to the last one before it.
    obtain ⟨first, hfamily, hfirst⟩ := exists_head?_plainChildren hfollow hp hcollects
    obtain ⟨hstart, hstop⟩ := h.span_collector htree hp hcollects hfamily
    obtain ⟨last, hlast, hreach⟩ :=
      reach_eq_of_isChain (h.plain_adjoin k p hp hcollects) hfirst
    obtain ⟨-, hfirstParent, hfirstPlain⟩ := mem_plainChildren.1 (List.mem_of_head? hfirst)
    obtain ⟨-, hlastParent, hlastPlain⟩ := mem_plainChildren.1 (List.mem_of_getLast? hlast)
    rw [hstart, hstop, hreach]
    exact ⟨(h.plain_within first p hfirstParent hfirstPlain).1,
      (h.plain_within last p hlastParent hlastPlain).2⟩

/-- A node lies within every collecting sibling behind it. If it collects
itself, both start with the first sibling, and the one behind is no shorter. -/
theorem within_collector (h : forest.LaidOut) (htree : forest.IsTree)
    (hfollow : ∀ d, ¬ forest.CollectsFirst d) (hk : forest.parent? k = some p)
    (hc : forest.parent? c = some p) (hcollects : forest.collectsAt c = true) (hkc : k < c) :
    (forest.adoptedWhere forest.walked).startAt c ≤
        (forest.adoptedWhere forest.walked).startAt k ∧
      (forest.adoptedWhere forest.walked).stopAt k ≤
        (forest.adoptedWhere forest.walked).stopAt c := by
  obtain ⟨first, hfamily, hfirst⟩ := exists_head?_plainChildren hfollow hc hcollects
  obtain ⟨hstart, hstop⟩ := h.span_collector htree hc hcollects hfamily
  rw [hstart, hstop]
  cases hkCollects : forest.collectsAt k with
  | true =>
    -- Both start with the first sibling, and the one behind is no shorter.
    obtain ⟨hstart, hstop⟩ := h.span_collector htree hk hkCollects hfamily
    have hlength := forest.plainLength_mono
      (forest.plainChildren_mono p (Nat.le_of_lt hkc))
    rw [hstart, hstop]
    omega
  | false =>
    obtain ⟨hstart, hstop⟩ := span_adoptedWhere_of_plain forest.walked (Or.inr hkCollects)
    have hreach := h.reach_plainChild hk hkCollects hc hcollects hkc hfirst
    have hlength := forest.plainLength_mono
      (forest.plainChildren_mono p (Nat.succ_le_of_lt hkc))
    rw [Nat.succ_eq_add_one, plainLength_plainChildren_succ hk hkCollects] at hlength
    rw [hstart, hstop, stopAt]
    omega

/-- Adoption leaves every node within its parent, be this the one from before or
the collecting sibling that took it in. -/
theorem nested_adoptedWhere (h : forest.LaidOut) (htree : forest.IsTree)
    (hfollow : ∀ d, ¬ forest.CollectsFirst d) :
    (forest.adoptedWhere forest.walked).Nested := by
  intro k q hq
  rw [parent?_adoptedWhere] at hq
  rcases adoptedParent_cases hq with hp | ⟨p, hp, hqp, -, hcollects, hlt⟩
  · have hplain : forest.parent? q = none ∨ forest.collectsAt q = false := by
      rcases h.plain_of_child hp with rfl | hplain
      · exact Or.inl htree.root_parent
      · exact Or.inr hplain
    obtain ⟨hstart, hstop⟩ := span_adoptedWhere_of_plain forest.walked hplain
    rw [hstart, hstop]
    exact h.within_parent htree hfollow hp
  · exact h.within_collector htree hfollow hp hqp hcollects hlt

/-- After adoption every node ends within the root, which keeps its span. So
each has a span that 64 bits can name. -/
theorem stopAt_adoptedWhere_lt (h : forest.LaidOut) (htree : forest.IsTree)
    (hfollow : ∀ d, ¬ forest.CollectsFirst d) (hk : k < forest.size) :
    (forest.adoptedWhere forest.walked).stopAt k < UInt64.size := by
  have hfits : (forest.adoptedWhere forest.walked).stopAt NodeId.root < UInt64.size := by
    rw [(span_adoptedWhere_of_plain forest.walked (Or.inl htree.root_parent)).2]
    exact h.root_fits
  rcases WayUp.atOrAbove_iff.1 (htree.root_atOrAbove k hk) with heq | habove
  · rwa [← heq]
  · refine Nat.lt_of_le_of_lt ((h.nested_adoptedWhere htree hfollow).of_above ?_).2 hfits
    rw [wayUp_adoptedWhere, above_adoptedParent_iff]
    exact Or.inl habove

end LaidOut

/-! ### Packing -/

/-- A node that is packed has the span that adoption gives it. -/
theorem span_packed (hk : forest.keptAt k = true) :
    forest.packed.startAt (forest.newSlot k) = (forest.adoptedWhere forest.walked).startAt k ∧
      forest.packed.lengthAt (forest.newSlot k) =
        (forest.adoptedWhere forest.walked).lengthAt k := by
  obtain ⟨node, hnode, hremoved⟩ := exists_node_of_keptAt hk
  have hpacked := getElem?_packed hnode hremoved
  have hadopted := forest.getElem?_adoptedWhere forest.walked k
  rw [hnode] at hadopted
  rw [startAt_eq hpacked, lengthAt_eq hpacked, startAt_eq hadopted, lengthAt_eq hadopted]
  exact ⟨rfl, rfl⟩

/-- If adoption leaves every node within its parent, so does packing: the new
parent of a node that stays is above it after adoption. -/
theorem Nested.packed (h : (forest.adoptedWhere forest.walked).Nested) :
    forest.packed.Nested := by
  intro j i hi
  obtain ⟨k, hk, rfl⟩ := exists_newSlot_of_lt_packed (lt_size_of_parent hi)
  rw [parent?_packed hk] at hi
  obtain ⟨a, ha, rfl⟩ := Option.map_eq_some_iff.1 hi
  obtain ⟨haKept, habove⟩ := nearestKept?_eq_some ha
  rw [← wayUp_adoptedWhere] at habove
  rw [stopAt, stopAt, (span_packed hk).1, (span_packed hk).2, (span_packed haKept).1,
    (span_packed haKept).2]
  exact h.of_above habove

/-- An array that is accepted and laid out as a matcher leaves it can be packed.
All nodes that are packed have a span, and it lies within that of the parent if
there is one. -/
theorem pack_nested (forest : Forest) (haccepted : forest.inspect.answer = .ok ())
    (hlaid : forest.LaidOut) :
    ∃ out events, forest.pack forest.size = .ok ⟨.ok out, events⟩ ∧
      (∀ (k : NodeId) (node : Node), out[k]? = some node → ∃ span, node.span = .ok span) ∧
      ∀ (k p : NodeId) (node : Node), out[k]? = some node → node.parent = some p →
        ∃ parent inner outer, out[p]? = some parent ∧ node.span = .ok inner ∧
          parent.span = .ok outer ∧ outer.start ≤ inner.start ∧ inner.stop ≤ outer.stop := by
  rw [inspect_answer] at haccepted
  obtain ⟨htree, hfollow⟩ := check_eq_ok_iff.1 haccepted
  obtain ⟨events, hpack⟩ := pack_eq_ok_iff.2 ⟨Nat.le_refl forest.size, by rwa [used_size],
    by rw [used_size]; exact hlaid.sumsFit htree, rfl⟩
  rw [used_size] at hpack
  have hspan : ∀ (j : NodeId) (node : Node), forest.packed[j]? = some node →
      ∃ span, node.span = .ok span := by
    intro j node hnode
    obtain ⟨k, hk, rfl⟩ := exists_newSlot_of_lt_packed (Array.getElem?_eq_some_iff.1 hnode).1
    -- Every slot that is left comes from one that stays, and has the span from there.
    rw [exists_span_iff hnode, stopAt, (span_packed hk).1, (span_packed hk).2]
    exact hlaid.stopAt_adoptedWhere_lt htree hfollow (lt_size_of_keptAt hk)
  refine ⟨forest.packed, events, hpack, hspan, fun k p node hnode hp => ?_⟩
  -- The parent is in the array, because compaction hands out new slots only.
  have hlt : p < forest.packed.size := by
    have hclosed := (keptWhere_packedNode_wayUp htree).1 k p
    rw [← size_familyLinked] at hclosed
    refine hclosed ?_
    rw [← parent?_familyLinked]
    exact (parent?_eq hnode).trans hp
  have hparent := Array.getElem?_eq_getElem hlt
  obtain ⟨inner, hinner⟩ := hspan k node hnode
  obtain ⟨outer, houter⟩ := hspan p _ hparent
  exact ⟨_, inner, outer, hparent, hinner, houter,
    (hlaid.nested_adoptedWhere htree hfollow).packed.span_le hnode hparent hp hinner houter⟩

/-- A removed group with two collecting nodes in it, one collecting node behind
it, and a gap behind that one. -/
def layered : Forest := #[
  { Node.fresh "root" none 0 with length := 10 },
  { Node.fresh "group" (some 0) 0 with length := 6, removed := true },
  { Node.fresh "first" (some 1) 0 with length := 2 },
  { Node.fresh "second" (some 1) 2 with length := 3, removed := true },
  { Node.fresh "pair" (some 1) 5 with collects := true },
  { Node.fresh "third" (some 1) 5 with length := 1 },
  { Node.fresh "run" (some 1) 6 with collects := true },
  { Node.fresh "fourth" (some 0) 6 with length := 2 },
  { Node.fresh "all" (some 0) 8 with collects := true },
  { Node.fresh "rest" (some 0) 9 with length := 1 }]

/-- The hypotheses hold of `layered`. Eight nodes are left, and some of them
come under three collecting nodes, one inside the other. -/
theorem pack_nested_layered :
    layered.inspect.answer = .ok () ∧ layered.LaidOut ∧
      ∃ out events, layered.pack layered.size = .ok ⟨.ok out, events⟩ ∧
        (∀ (k : NodeId) (node : Node), out[k]? = some node → ∃ span, node.span = .ok span) ∧
        ∀ (k p : NodeId) (node : Node), out[k]? = some node → node.parent = some p →
          ∃ parent inner outer, out[p]? = some parent ∧ node.span = .ok inner ∧
            parent.span = .ok outer ∧ outer.start ≤ inner.start ∧ inner.stop ≤ outer.stop := by
  have haccepted : layered.inspect.answer = .ok () := by cbv
  have hlaid : layered.LaidOut := by decide +kernel
  exact ⟨haccepted, hlaid, pack_nested layered haccepted hlaid⟩

end ParseForest.Forest
