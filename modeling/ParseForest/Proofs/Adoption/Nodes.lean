import ParseForest.Proofs.Adoption
import ParseForest.Proofs.Collecting.Run

/-!
# `ParseForest.Proofs.Adoption.Nodes`: every node after adoption, field by field

`Forest.adoptedNode` makes every node in one go. Here the rules that it follows
stand one by one, each in terms of the parents and flags of the array as it was:
who takes a node in (`Forest.TakesIn`), what a collecting node covers, and where
the links lead (`Forest.AdoptedAs`). The rules leave no choice
(`Forest.AdoptedAs.unique`).

`Forest.adoptRuns_nodes` says that a tree comes to follow the rules in every
slot. It does not matter whether collecting nodes are first children, or parents
are stored behind their children.
-/

set_option autoImplicit false

namespace ParseForest.Forest

variable {forest : Forest} {visited : NodeId → Bool} {node : Node} {c k p : NodeId}

/-- Among the children of a walked slot, `c` is the first behind `k` that
collects. -/
structure TakesIn (forest : Forest) (c k p : NodeId) : Prop where
  walked : forest.Walked p
  parent : forest.parent? k = some p
  sibling : forest.parent? c = some p
  behind : k < c
  collects : forest.collectsAt c = true
  nearest : ∀ d, k < d → d < c → forest.parent? d = some p → forest.collectsAt d = false

/-- What becomes of the node of a slot, given the node with the links that the
parents imply. -/
structure AdoptedAs (forest : Forest) (k : NodeId) (node link adopted : Node) : Prop where
  /-- A node that is taken in goes under the collecting node. -/
  parent_taken : ∀ c p, forest.TakesIn c k p → adopted.parent = some c
  parent_kept : (∀ c p, ¬ forest.TakesIn c k p) → adopted.parent = node.parent
  /-- A collecting node covers as much as the children before it that do not
  collect, from where the first child starts. -/
  span_covering : ∀ p, node.parent = some p → forest.Walked p → node.collects = true →
    (∃ first lead, forest.firstChild? p = some first ∧ forest[first]? = some lead ∧
        adopted.offset = lead.offset) ∧
      adopted.length.toNat = forest.plainLength (forest.plainChildren p k)
  span_kept : (∀ p, node.parent = some p → forest.Walked p → node.collects = false) →
    adopted.offset = node.offset ∧ adopted.length = node.length
  /-- The last collecting child comes first. -/
  child_collector : ∀ c, forest.Walked k → forest.parent? c = some k →
    forest.collectsAt c = true →
    (∀ d, c < d → forest.parent? d = some k → forest.collectsAt d = false) →
      adopted.child = some c
  child_kept : (forest.Walked k → ∀ c, forest.parent? c = some k → forest.collectsAt c = false) →
    adopted.child = link.child
  next_eq : adopted.next = link.next
  /-- All that a node may differ in. -/
  rest_eq : adopted = { node with
    parent := adopted.parent
    offset := adopted.offset
    length := adopted.length
    child := adopted.child
    next := adopted.next }

/-- The flag that adoption is computed with says whether a slot is walked. -/
theorem walked_iff : forest.walked p = true ↔ forest.Walked p := decide_eq_true_iff

/-! ### Parents -/

/-- The collecting node that takes in a slot is found among the siblings. A
family is in the order of the array, so the first behind the slot is the nearest
one. -/
theorem takesIn_iff :
    forest.TakesIn c k p ↔ forest.Walked p ∧ forest.parent? k = some p ∧
      forest.collectorAmong? (forest.family (some p)) k = some c := by
  rw [collectorAmong?_family_eq_some_iff]
  constructor
  · intro h
    exact ⟨h.walked, h.parent, ⟨h.behind, h.sibling, h.collects⟩,
      fun d hdc hkd => h.nearest d hkd hdc⟩
  · rintro ⟨hwalked, hp, ⟨hkc, hc, hcollects⟩, hnearest⟩
    exact ⟨hwalked, hp, hc, hkc, hcollects, fun d hkd hdc => hnearest d hdc hkd⟩

/-- A slot that a collecting node takes in has it for a parent. -/
theorem TakesIn.adoptedParent_eq (h : forest.TakesIn c k p) :
    forest.adoptedParent forest.walked k = some c := by
  obtain ⟨hwalked, hp, hcollector⟩ := takesIn_iff.1 h
  rw [adoptedParent_of_visited hp (walked_iff.2 hwalked), hcollector]
  rfl

/-- A slot that no collecting node takes in keeps its parent. Either its parent
is not walked, or no sibling behind it collects. -/
theorem adoptedParent_eq_parent? (h : ∀ c p, ¬ forest.TakesIn c k p) :
    forest.adoptedParent forest.walked k = forest.parent? k := by
  cases hp : forest.parent? k with
  | none =>
    unfold adoptedParent
    rw [hp]
  | some p =>
    cases hv : forest.walked p with
    | false => exact adoptedParent_of_not_visited hp hv
    | true =>
      rw [adoptedParent_of_visited hp hv]
      cases hcollector : forest.collectorAmong? (forest.family (some p)) k with
      | none => rfl
      | some c => exact absurd (takesIn_iff.2 ⟨walked_iff.1 hv, hp, hcollector⟩) (h c p)

/-- The parent of a node after adoption does not depend on the other fields of
the node. -/
theorem adoptedNode_parent (hnode : forest[k]? = some node) :
    (forest.adoptedNode visited k node).parent = forest.adoptedParent visited k := by
  have hadopted : (forest.adoptedWhere visited)[k]? = some (forest.adoptedNode visited k node) := by
    rw [getElem?_adoptedWhere, hnode]
    rfl
  rw [← parent?_adoptedWhere, parent?_eq hadopted]

/-! ### Links -/

/-- The last of the children that collects has none behind it that does. With it
the first child is stated by the parents and flags, and no longer by a list. -/
theorem lastCollector?_family_eq_some_iff :
    forest.lastCollector? (forest.family (some p)) = some c ↔
      (forest.parent? c = some p ∧ forest.collectsAt c = true) ∧
        ∀ d, c < d → forest.parent? d = some p → forest.collectsAt d = false := by
  have hmem : ∀ d, d ∈ (forest.family (some p)).filter forest.collectsAt ↔
      forest.parent? d = some p ∧ forest.collectsAt d = true := by
    intro d
    rw [List.mem_filter, mem_family_some]
  have hsorted := (forest.family_pairwise (some p)).filter forest.collectsAt
  unfold lastCollector?
  constructor
  · intro hlast
    obtain ⟨before, hsplit⟩ := List.getLast?_eq_some_iff.1 hlast
    refine ⟨(hmem c).1 (List.mem_of_getLast? hlast), fun d hcd hd => ?_⟩
    rw [← Bool.not_eq_true]
    intro hcollects
    -- It would have to stand before the last one, but comes behind it.
    have hdmem := (hmem d).2 ⟨hd, hcollects⟩
    rw [hsplit, List.mem_append, List.mem_singleton] at hdmem
    rw [hsplit, List.pairwise_append] at hsorted
    rcases hdmem with hbefore | rfl
    · exact Nat.lt_asymm hcd (hsorted.2.2 d hbefore c List.mem_cons_self)
    · exact Nat.lt_irrefl d hcd
  · rintro ⟨hc, hlast⟩
    obtain ⟨before, after, hsplit⟩ := List.append_of_mem ((hmem c).2 hc)
    have hafter : after = [] := by
      rw [List.eq_nil_iff_forall_not_mem]
      intro d hd
      obtain ⟨hdp, hcollects⟩ := (hmem d).1 (by
        rw [hsplit]
        exact List.mem_append_right _ (List.mem_cons_of_mem _ hd))
      rw [hsplit, List.pairwise_append] at hsorted
      rw [hlast d (List.rel_of_pairwise_cons hsorted.2.1 hd) hdp] at hcollects
      cases hcollects
    rw [hsplit, hafter, List.getLast?_append]
    rfl

/-- No child collects exactly if there is no last one that does. -/
theorem lastCollector?_family_eq_none_iff :
    forest.lastCollector? (forest.family (some p)) = none ↔
      ∀ c, forest.parent? c = some p → forest.collectsAt c = false := by
  unfold lastCollector?
  rw [List.getLast?_eq_none_iff, List.filter_eq_nil_iff]
  simp only [mem_family_some, Bool.not_eq_true]

/-- The first child of a visited slot is the last of its children that collects,
if there is one, and otherwise the one that the parents imply. -/
theorem adoptedNode_child (forest : Forest) (visited : NodeId → Bool) (k : NodeId) (node : Node) :
    (forest.adoptedNode visited k node).child =
      if visited k then
        (forest.lastCollector? (forest.family (some k))).or (forest.firstChild? k)
      else forest.firstChild? k := rfl

/-! ### All fields -/

/-- Every node follows the rules, if 64 bits hold the lengths. Without that, the
length that a collecting node gets would be one that is cut down to 64 bits. -/
theorem adoptedAs_adoptedNode (hfits : forest.SumsFit) (hnode : forest[k]? = some node) :
    forest.AdoptedAs k node
      { node with child := forest.firstChild? k, next := forest.nextSibling? k }
      (forest.adoptedNode forest.walked k node) := by
  have hparent : (forest.adoptedNode forest.walked k node).parent =
      forest.adoptedParent forest.walked k := adoptedNode_parent hnode
  constructor
  case parent_taken =>
    intro c p h
    rw [hparent, h.adoptedParent_eq]
  case parent_kept =>
    intro h
    rw [hparent, adoptedParent_eq_parent? h, parent?_eq hnode]
  case span_covering =>
    intro p hp hwalked hcollects
    obtain ⟨hoffset, hlength⟩ :=
      adoptedNode_span_of_collects hnode hp (walked_iff.2 hwalked) hcollects
    refine ⟨hoffset, ?_⟩
    -- The sum before a child is part of one that 64 bits hold.
    have hk : k < forest.size := (Array.getElem?_eq_some_iff.1 hnode).1
    rw [hlength]
    exact UInt64.toNat_ofNat_of_lt (hfits.before hwalked (Nat.le_of_lt hk))
  case span_kept =>
    intro h
    exact adoptedNode_span_of_plain fun p hp hv => h p hp (walked_iff.1 hv)
  case child_collector =>
    intro c hwalked hp hcollects hlast
    rw [adoptedNode_child, if_pos (walked_iff.2 hwalked),
      lastCollector?_family_eq_some_iff.2 ⟨⟨hp, hcollects⟩, hlast⟩]
    rfl
  -- A slot that is not walked keeps its first child, and so does one without a collecting
  -- child.
  case child_kept =>
    intro h
    rw [adoptedNode_child]
    split
    · rename_i hv
      rw [lastCollector?_family_eq_none_iff.2 (h (walked_iff.1 hv))]
      rfl
    · rfl
  case next_eq => rfl
  case rest_eq =>
    unfold adoptedNode
    split <;> rfl

namespace AdoptedAs

variable {link adopted adopted' : Node}

/-- The rules leave no choice of the parent: a collecting node takes the slot
in, or none does. -/
theorem parent_unique (h : forest.AdoptedAs k node link adopted)
    (h' : forest.AdoptedAs k node link adopted') : adopted.parent = adopted'.parent := by
  by_cases htaken : ∃ c p, forest.TakesIn c k p
  · obtain ⟨c, p, hp⟩ := htaken
    rw [h.parent_taken c p hp, h'.parent_taken c p hp]
  · have hnone : ∀ c p, ¬ forest.TakesIn c k p := fun c p hp => htaken ⟨c, p, hp⟩
    rw [h.parent_kept hnone, h'.parent_kept hnone]

/-- The rules leave no choice of the span. A collecting child of a walked slot
covers what the rule says, and everything else what it did. -/
theorem span_unique (h : forest.AdoptedAs k node link adopted)
    (h' : forest.AdoptedAs k node link adopted') :
    adopted.offset = adopted'.offset ∧ adopted.length = adopted'.length := by
  by_cases hcovering : ∃ p, node.parent = some p ∧ forest.Walked p ∧ node.collects = true
  · obtain ⟨p, hp, hwalked, hcollects⟩ := hcovering
    obtain ⟨⟨first, lead, hfirst, hlead, hoffset⟩, hlength⟩ :=
      h.span_covering p hp hwalked hcollects
    obtain ⟨⟨first', lead', hfirst', hlead', hoffset'⟩, hlength'⟩ :=
      h'.span_covering p hp hwalked hcollects
    rw [hfirst] at hfirst'
    cases hfirst'
    rw [hlead] at hlead'
    cases hlead'
    exact ⟨hoffset.trans hoffset'.symm, UInt64.toNat_inj.1 (hlength.trans hlength'.symm)⟩
  · have hkept : ∀ p, node.parent = some p → forest.Walked p → node.collects = false := by
      intro p hp hwalked
      rw [← Bool.not_eq_true]
      exact fun hcollects => hcovering ⟨p, hp, hwalked, hcollects⟩
    obtain ⟨hoffset, hlength⟩ := h.span_kept hkept
    obtain ⟨hoffset', hlength'⟩ := h'.span_kept hkept
    exact ⟨hoffset.trans hoffset'.symm, hlength.trans hlength'.symm⟩

/-- The rules leave no choice of the first child. If some children collect, one
of them is the last. -/
theorem child_unique (h : forest.AdoptedAs k node link adopted)
    (h' : forest.AdoptedAs k node link adopted') : adopted.child = adopted'.child := by
  by_cases hwalked : forest.Walked k
  · cases hlast : forest.lastCollector? (forest.family (some k)) with
    | some c =>
      obtain ⟨⟨hc, hcollects⟩, hbehind⟩ := lastCollector?_family_eq_some_iff.1 hlast
      rw [h.child_collector c hwalked hc hcollects hbehind,
        h'.child_collector c hwalked hc hcollects hbehind]
    | none =>
      have hnone := lastCollector?_family_eq_none_iff.1 hlast
      rw [h.child_kept fun _ => hnone, h'.child_kept fun _ => hnone]
  · rw [h.child_kept fun hw => absurd hw hwalked, h'.child_kept fun hw => absurd hw hwalked]

/-- For every field, in every case, there is a rule. So two nodes that follow
the rules at the same slot are the same node. -/
theorem unique (h : forest.AdoptedAs k node link adopted)
    (h' : forest.AdoptedAs k node link adopted') : adopted = adopted' := by
  have hnext : adopted.next = adopted'.next := h.next_eq.trans h'.next_eq.symm
  obtain ⟨hoffset, hlength⟩ := h.span_unique h'
  rw [h.rest_eq, h.parent_unique h', hoffset, hlength, h.child_unique h', hnext]
  exact h'.rest_eq.symm

end AdoptedAs

/-- In a tree in which no sum of lengths leaves 64 bits, collecting nodes take
in the siblings before them, and every node follows the rules. -/
theorem adoptRuns_nodes (forest : Forest) (h : forest.IsTree) (hfits : forest.SumsFit) :
    ∃ linked adopted events, forest.relink = .ok linked ∧
      forest.adoptRuns = .ok ⟨adopted, events⟩ ∧ adopted.size = forest.size ∧
      ∀ (k : NodeId) (node : Node), forest[k]? = some node →
        ∃ link after, linked[k]? = some link ∧ adopted[k]? = some after ∧
          forest.AdoptedAs k node link after := by
  rcases adoptRuns_cases h with ⟨visited, -, -, -, hruns⟩ | ⟨-, hover⟩
  · refine ⟨_, _, _, relink_eq h.closed, hruns, size_adoptedWhere _ _, fun k node hnode => ?_⟩
    refine ⟨_, _, ?_, ?_, adoptedAs_adoptedNode hfits hnode⟩
    · rw [getElem?_familyLinked, hnode]
      rfl
    · rw [getElem?_adoptedWhere, hnode]
      rfl
  · exact absurd hfits hover

/-- A collecting first child, a pair under a collecting node behind it, a word
stored behind its first letter, and collecting nodes under a collecting node. -/
def manifold : Forest := #[
  { Node.fresh "root" none 0 with length := 9, collects := true },
  { Node.fresh "early" (some 0) 3 with length := 4, collects := true },
  { Node.fresh "letter" (some 5) 3 with length := 1, nextOut := 6 },
  { Node.fresh "mark" (some 0) 4 with length := 2 },
  { Node.fresh "pair" (some 0) 8 with length := 8, collects := true },
  { Node.fresh "word" (some 0) 6 with length := 1 },
  { Node.fresh "run" (some 5) 4 with collects := true },
  { Node.fresh "inside" (some 4) 4 with length := 7 },
  { Node.fresh "covering" (some 4) 4 with length := 1, collects := true },
  { Node.fresh "all" (some 0) 7 with collects := true }]

/-- The hypotheses hold of `manifold`, and the rules give what is expected
there: the pair goes under the collecting node behind it, and covers the two
units before it, from where the collecting first child starts. -/
theorem adoptRuns_nodes_manifold :
    manifold.IsTree ∧ manifold.SumsFit ∧
      ∃ linked adopted events, manifold.relink = .ok linked ∧
        manifold.adoptRuns = .ok ⟨adopted, events⟩ ∧ adopted.size = 10 ∧
        ∃ pair, adopted[4]? = some pair ∧ pair.parent = some 9 ∧ pair.offset = 3 ∧
          pair.length.toNat = 2 := by
  have htree : manifold.IsTree := by decide +kernel
  have hfits : manifold.SumsFit := SumsFit.of_lt_size htree.closed (by decide +kernel)
  obtain ⟨linked, adopted, events, hlinked, hadopted, hsize, hnodes⟩ :=
    adoptRuns_nodes manifold htree hfits
  obtain ⟨link, pair, -, hpair, hrules⟩ := hnodes 4 _ rfl
  have htaken : manifold.TakesIn 9 4 0 := takesIn_iff.2 (by decide +kernel)
  obtain ⟨⟨first, lead, hfirst, hlead, hoffset⟩, hlength⟩ :=
    hrules.span_covering 0 rfl htaken.walked rfl
  have hearly : manifold.firstChild? 0 = some 1 := by decide +kernel
  rw [hearly] at hfirst
  cases hfirst
  cases hlead
  exact ⟨htree, hfits, linked, adopted, events, hlinked, hadopted, hsize, pair, hpair,
    hrules.parent_taken 9 0 htaken, hoffset, hlength.trans (by decide +kernel)⟩

end ParseForest.Forest
