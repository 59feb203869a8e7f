import ParseForest.Event
import ParseForest.Proofs.Family

/-!
# `ParseForest.Proofs.Collecting`: what the collecting nodes are to take in

Which parent, span and child every node is to have after adoption, read off the
array as the matcher left it:

* the children of a slot go through adoption if it is walked (`Forest.Walked`):
  it is the root, or neither it nor, the root apart, anything above it collects;
* a child of a walked slot goes under the first collecting sibling behind it, if
  there is one (`Forest.adoptedParent`);
* a collecting child of a walked slot starts where the first child starts and is
  as long as those before it that do not collect (`Forest.plainLength`);
* the last collecting child of a walked slot is its first child from then on.

The definitions take the set of slots whose children went through adoption as a
parameter, so that they also describe the array in the middle of the pass.
`Forest.adoptedWhere` is the whole array.
-/

set_option autoImplicit false

namespace ParseForest.Forest

variable {forest forest' : Forest} {siblings before after : List NodeId} {k p c : NodeId}

/-- The slot is the root, or neither it nor, the root apart, anything above it
collects. -/
def Walked (forest : Forest) (p : NodeId) : Prop :=
  p = NodeId.root ∨
    ¬ forest.collectsAt p ∧
      ∀ a, a ≠ NodeId.root → forest.wayUp.Above a p → ¬ forest.collectsAt a

instance (forest : Forest) (p : NodeId) : Decidable (forest.Walked p) :=
  decidable_of_iff
    (p = NodeId.root ∨
      ¬ forest.collectsAt p ∧
        ∀ a ∈ forest.wayUp.ascent forest.size p, a ≠ NodeId.root → ¬ forest.collectsAt a) <| by
    simp only [WayUp.mem_ascent_iff forest.wayUp_within, Walked]
    exact or_congr_right (and_congr_right' (forall_congr' fun a => imp.swap))

/-- The walked slots, as a test. -/
def walked (forest : Forest) (p : NodeId) : Bool := decide (forest.Walked p)

/-- The first of some siblings behind a slot that collects. -/
def collectorAmong? (forest : Forest) (siblings : List NodeId) (k : NodeId) : Option NodeId :=
  siblings.find? fun c => k < c && forest.collectsAt c

/-- The last of some siblings that collects. -/
def lastCollector? (forest : Forest) (siblings : List NodeId) : Option NodeId :=
  (siblings.filter forest.collectsAt).getLast?

/-- How many bytes the nodes of some slots are long, those that collect left
out. -/
def plainLength (forest : Forest) : (ids : List NodeId) → Nat
  | [] => 0
  | k :: ids =>
    (match forest[k]? with
      | some node => if node.collects then 0 else node.length.toNat
      | none => 0) + plainLength forest ids

/-- For every walked slot, 64 bits hold the length of the children that do not
collect. -/
def SumsFit (forest : Forest) : Prop :=
  ∀ p, forest.Walked p → forest.plainLength (forest.family (some p)) < UInt64.size

/-- A node after some siblings, itself one of them, went through adoption. -/
def adoptAmong (forest : Forest) (siblings : List NodeId) (k : NodeId) (node : Node) : Node :=
  { node with
    parent := (forest.collectorAmong? siblings k).or node.parent
    offset :=
      if node.collects then ((siblings.head?.bind (forest[·]?)).getD node).offset
      else node.offset
    length :=
      if node.collects then .ofNat (forest.plainLength (siblings.filter fun c => c < k))
      else node.length }

/-- The parents after the children of the `visited` slots went through adoption:
under a visited slot the first collecting sibling behind, if there is one, and
else the same. -/
def adoptedParent (forest : Forest) (visited : NodeId → Bool) : WayUp := fun k =>
  match forest.parent? k with
  | none => none
  | some p =>
    if visited p then (forest.collectorAmong? (forest.family (some p)) k).or (some p)
    else some p

/-- The node of a slot after the children of the `visited` slots went through
adoption. -/
def adoptedNode (forest : Forest) (visited : NodeId → Bool) (k : NodeId) (node : Node) : Node :=
  let adopted :=
    if node.parent.any visited then forest.adoptAmong (forest.family node.parent) k node
    else node
  { adopted with
    child :=
      if visited k then
        (forest.lastCollector? (forest.family (some k))).or (forest.firstChild? k)
      else forest.firstChild? k
    next := forest.nextSibling? k }

/-- The array after the children of the `visited` slots went through
adoption. -/
def adoptedWhere (forest : Forest) (visited : NodeId → Bool) : Forest :=
  forest.mapIdx (forest.adoptedNode visited)

/-- What is told when some children of a slot go through adoption: for each that
collects, how many siblings it takes in. -/
def absorptions (forest : Forest) (p : NodeId) (siblings : List NodeId) : List Event :=
  (siblings.filter forest.collectsAt).map fun c =>
    .absorbed c (siblings.countP fun k => forest.collectorAmong? siblings k = some c) p

/-! ### Walked slots -/

/-- A child of a walked slot is walked unless it collects. So the visits go on
from it. -/
theorem Walked.of_parent (hroot : forest.parent? NodeId.root = none) (hp : forest.Walked p)
    (hk : forest.parent? k = some p) (hplain : forest.collectsAt k = false) : forest.Walked k := by
  refine Or.inr ⟨by simp [hplain], fun a ha habove => ?_⟩
  have hatOrAbove := (WayUp.above_iff_of_up hk).1 habove
  rcases hp with rfl | ⟨hpPlain, hpAbove⟩
  · -- Nothing is at or above the root but the root.
    exact absurd (hatOrAbove.eq_of_up_none hroot) ha
  · rcases WayUp.atOrAbove_iff.1 hatOrAbove with rfl | habove
    · exact hpPlain
    · exact hpAbove a ha habove

/-- A walked slot does not collect, the root apart, and its parent is walked. So
the visits have come by way of the parent. -/
theorem Walked.parent (hroot : forest.parent? NodeId.root = none) (hk : forest.Walked k)
    (hp : forest.parent? k = some p) : forest.collectsAt k = false ∧ forest.Walked p := by
  rcases hk with rfl | ⟨hplain, habove⟩
  · rw [hroot] at hp
    cases hp
  · refine ⟨by simpa using hplain, ?_⟩
    by_cases hpRoot : p = NodeId.root
    · exact Or.inl hpRoot
    · refine Or.inr ⟨habove p hpRoot (WayUp.above_iff_of_up hp |>.2 (WayUp.AtOrAbove.refl p)), ?_⟩
      intro a ha hap
      exact habove a ha (WayUp.above_iff_of_up hp |>.2 hap.atOrAbove)

/-- The sums do not fit if some walked slot has children that are too long
together. -/
theorem not_sumsFit_iff :
    ¬ forest.SumsFit ↔
      ∃ p, forest.Walked p ∧ UInt64.size ≤ forest.plainLength (forest.family (some p)) := by
  simp only [SumsFit, not_forall, Nat.not_lt, exists_prop]

/-- Only slots of the array have children, so no others can have too long ones.
This leaves finitely many slots to look at. -/
theorem SumsFit.of_lt_size (hclosed : forest.Closed)
    (h : ∀ p < forest.size, forest.Walked p →
      forest.plainLength (forest.family (some p)) < UInt64.size) : forest.SumsFit := by
  intro p hwalked
  rcases Nat.lt_or_ge p forest.size with hlt | hge
  · exact h p hlt hwalked
  · rw [family_of_size_le hclosed hge]
    show 0 < UInt64.size
    decide

/-! ### One more sibling -/

/-- One more sibling takes in a slot before it if it collects and none behind
the slot did before. -/
theorem collectorAmong?_concat (forest : Forest) (siblings : List NodeId) (c k : NodeId) :
    forest.collectorAmong? (siblings ++ [c]) k =
      (forest.collectorAmong? siblings k).or
        (if k < c ∧ forest.collectsAt c then some c else none) := by
  rw [collectorAmong?, List.find?_append, collectorAmong?]
  by_cases h : k < c ∧ forest.collectsAt c
  · simp [h]
  · rw [if_neg h, List.find?_singleton, if_neg (by simpa using h)]

/-- One more sibling is the last that collects, unless it does not collect. -/
theorem lastCollector?_concat (forest : Forest) (siblings : List NodeId) (c : NodeId) :
    forest.lastCollector? (siblings ++ [c]) =
      if forest.collectsAt c then some c else forest.lastCollector? siblings := by
  rw [lastCollector?, List.filter_append]
  by_cases h : forest.collectsAt c
  · simp [h]
  · simp [h, lastCollector?]

/-- Siblings put together are as long as they are apart. There is no overflow
here: the length is a natural number. -/
theorem plainLength_append (forest : Forest) (before after : List NodeId) :
    forest.plainLength (before ++ after) =
      forest.plainLength before + forest.plainLength after := by
  induction before with
  | nil => simp [plainLength]
  | cons k before ih => rw [List.cons_append, plainLength, plainLength, ih, Nat.add_assoc]

/-- A sibling behind all others adds its length unless it collects. This is the
running sum of the pass. -/
theorem plainLength_concat (siblings : List NodeId) {node : Node} (hnode : forest[c]? = some node) :
    forest.plainLength (siblings ++ [c]) =
      forest.plainLength siblings + if node.collects then 0 else node.length.toNat := by
  rw [plainLength_append]
  simp [plainLength, hnode]

/-- No sibling lies behind one that comes after all of them, so nothing has
taken it in yet. -/
theorem collectorAmong?_eq_none (forest : Forest) (hbefore : ∀ k ∈ siblings, k < c) :
    forest.collectorAmong? siblings c = none := by
  rw [collectorAmong?, List.find?_eq_none]
  intro k hk
  simp [Nat.le_of_lt (hbefore k hk)]

/-- Whether a slot of the array collects is what the flag of its node says. -/
theorem collectsAt_eq {node : Node} (hnode : forest[k]? = some node) :
    forest.collectsAt k = node.collects := by
  simp [collectsAt, hnode]

/-- A sibling that comes behind another one takes it in if it collects and none
before did; nothing else of the other one changes. -/
theorem adoptAmong_concat_of_mem (hk : k ∈ siblings) (hkc : k < c) (node : Node) :
    forest.adoptAmong (siblings ++ [c]) k node =
      { forest.adoptAmong siblings k node with
        parent := ((forest.collectorAmong? siblings k).or
          (if forest.collectsAt c then some c else none)).or node.parent } := by
  have hhead : (siblings ++ [c]).head? = siblings.head? := by
    cases siblings with
    | nil => cases hk
    | cons d siblings => rfl
  have hfilter : (siblings ++ [c]).filter (fun d => d < k) = siblings.filter fun d => d < k := by
    rw [List.filter_append]
    simp [Nat.le_of_lt hkc]
  rw [adoptAmong, collectorAmong?_concat, hhead, hfilter]
  simp [adoptAmong, hkc]

/-- A sibling behind all others keeps its parent, and covers the others if it
collects: from where the first of them starts, and over the length of those that
do not collect. -/
theorem adoptAmong_concat_self (hbefore : ∀ k ∈ siblings, k < c) (node : Node) :
    forest.adoptAmong (siblings ++ [c]) c node =
      { node with
        offset :=
          if node.collects then (((siblings ++ [c]).head?.bind (forest[·]?)).getD node).offset
          else node.offset
        length :=
          if node.collects then .ofNat (forest.plainLength siblings) else node.length } := by
  have hfilter : (siblings ++ [c]).filter (fun d => d < c) = siblings := by
    rw [List.filter_append, List.filter_eq_self.2 (by simpa using hbefore)]
    simp
  rw [adoptAmong, collectorAmong?_concat, collectorAmong?_eq_none forest hbefore, hfilter]
  simp

/-- What takes in a sibling is a sibling itself. -/
theorem mem_of_collectorAmong? (h : forest.collectorAmong? siblings k = some c) :
    c ∈ siblings :=
  List.mem_of_find?_eq_some h

/-- Only siblings before the last one are taken in by one that comes behind all
of them. So the counts of earlier collecting siblings are settled when they are
met. -/
theorem countP_concat (hbefore : ∀ k ∈ siblings, k < c) (d : NodeId) :
    (siblings ++ [c]).countP (fun k => forest.collectorAmong? (siblings ++ [c]) k = some d) =
      siblings.countP fun k => (forest.collectorAmong? siblings k).or
        (if forest.collectsAt c then some c else none) = some d := by
  have hself : forest.collectorAmong? (siblings ++ [c]) c = none := by
    rw [collectorAmong?_concat, collectorAmong?_eq_none forest hbefore]
    simp
  rw [List.countP_append, List.countP_singleton]
  simp only [hself, reduceCtorEq, decide_false, Bool.false_eq_true, if_false, Nat.add_zero]
  refine List.countP_congr fun k hk => ?_
  simp [collectorAmong?_concat, hbefore k hk]

/-- A sibling behind all others that does not collect tells nothing, and changes
nothing that was told. -/
theorem absorptions_concat_plain (hplain : forest.collectsAt c = false)
    (hbefore : ∀ k ∈ siblings, k < c) (p : NodeId) :
    forest.absorptions p (siblings ++ [c]) = forest.absorptions p siblings := by
  rw [absorptions, List.filter_append, absorptions]
  simp [hplain, countP_concat hbefore]

/-- A sibling behind all others that collects tells how many of them none had
taken in, which is the size of the run before it. -/
theorem absorptions_concat_collector (hcollects : forest.collectsAt c = true)
    (hbefore : ∀ k ∈ siblings, k < c) (p : NodeId) :
    forest.absorptions p (siblings ++ [c]) =
      forest.absorptions p siblings ++
        [.absorbed c (siblings.countP fun k => (forest.collectorAmong? siblings k).isNone) p] := by
  have hnot : c ∉ siblings := fun hmem => Nat.lt_irrefl c (hbefore c hmem)
  rw [absorptions, List.filter_append, List.map_append, absorptions]
  simp only [countP_concat hbefore, hcollects, if_true, List.filter_singleton]
  congr 1
  · refine List.map_congr_left fun d hd => ?_
    -- What an earlier one has taken in does not change hands.
    have hdc : c ≠ d := fun heq => hnot (heq ▸ List.mem_of_mem_filter hd)
    congr 1
    refine List.countP_congr fun k _ => ?_
    cases forest.collectorAmong? siblings k <;> simp [hdc]
  · have hcount : siblings.countP (fun k =>
          (forest.collectorAmong? siblings k).or (some c) = some c) =
        siblings.countP fun k => (forest.collectorAmong? siblings k).isNone := by
      refine List.countP_congr fun k _ => ?_
      cases hk : forest.collectorAmong? siblings k with
      | none => simp
      | some d =>
        have hdc : d ≠ c := fun heq => hnot (heq ▸ mem_of_collectorAmong? hk)
        simp [hdc]
    simp only [cond_true, List.map_cons, List.map_nil, hcount]

/-! ### The array in the middle of the pass -/

variable {visited visited' : NodeId → Bool}

/-- What a slot holds when some slots were visited depends on the node that was
there and on the slots of its family alone. -/
theorem getElem?_adoptedWhere (forest : Forest) (visited : NodeId → Bool) (k : NodeId) :
    (forest.adoptedWhere visited)[k]? = forest[k]?.map (forest.adoptedNode visited k) := by
  rw [adoptedWhere, Array.getElem?_mapIdx]

/-- Adoption takes out no slot and adds none. -/
@[simp] theorem size_adoptedWhere (forest : Forest) (visited : NodeId → Bool) :
    (forest.adoptedWhere visited).size = forest.size :=
  Array.size_mapIdx

/-- Under a slot that was not visited, only the links have changed. -/
theorem adoptedNode_of_not_visited {node : Node} (h : node.parent.any visited = false) :
    forest.adoptedNode visited k node =
      { node with
        child :=
          if visited k then
            (forest.lastCollector? (forest.family (some k))).or (forest.firstChild? k)
          else forest.firstChild? k
        next := forest.nextSibling? k } := by
  rw [adoptedNode, if_neg (by simp [h])]

/-- A node goes on collecting if it did. -/
theorem adoptedNode_collects (forest : Forest) (visited : NodeId → Bool) (k : NodeId)
    (node : Node) : (forest.adoptedNode visited k node).collects = node.collects := by
  rw [adoptedNode]
  split <;> rfl

/-- A node is still to be dropped if it was, and to stay if it was not. -/
theorem adoptedNode_removed (forest : Forest) (visited : NodeId → Bool) (k : NodeId)
    (node : Node) : (forest.adoptedNode visited k node).removed = node.removed := by
  rw [adoptedNode]
  split <;> rfl

/-- The next sibling stays what linking has made it: the siblings that were
taken in lie before the one that took them, and are still linked to it. -/
theorem adoptedNode_next (forest : Forest) (visited : NodeId → Bool) (k : NodeId) (node : Node) :
    (forest.adoptedNode visited k node).next = forest.nextSibling? k := rfl

/-- Nodes that do not collect keep their length, so what is summed up does not
depend on who was visited before. -/
theorem adoptedNode_length {node : Node} (hplain : node.collects = false) :
    (forest.adoptedNode visited k node).length = node.length := by
  rw [adoptedNode]
  split
  · simp [adoptAmong, hplain]
  · rfl

/-- The parents of the array are those said to be, which `adoptedParent` says
without nodes. -/
theorem parent?_adoptedWhere (forest : Forest) (visited : NodeId → Bool) (k : NodeId) :
    (forest.adoptedWhere visited).parent? k = forest.adoptedParent visited k := by
  rw [parent?, getElem?_adoptedWhere, adoptedParent, parent?]
  cases forest[k]? with
  | none => rfl
  | some node =>
    simp only [Option.map_some, Option.bind_some, adoptedNode]
    cases hparent : node.parent with
    | none => simp [hparent]
    | some p =>
      simp only [Option.any_some]
      split <;> simp [adoptAmong, hparent]

/-- So is the way up. -/
theorem wayUp_adoptedWhere (forest : Forest) (visited : NodeId → Bool) :
    (forest.adoptedWhere visited).wayUp = forest.adoptedParent visited :=
  funext (forest.parent?_adoptedWhere visited)

/-- Which slots collect is not changed by any visit. -/
@[simp] theorem collectsAt_adoptedWhere (forest : Forest) (visited : NodeId → Bool) :
    (forest.adoptedWhere visited).collectsAt = forest.collectsAt := by
  funext k
  rw [collectsAt, getElem?_adoptedWhere, collectsAt]
  cases forest[k]? <;> simp [adoptedNode_collects]

/-- Nor is what takes in a slot, -/
@[simp] theorem collectorAmong?_adoptedWhere (forest : Forest) (visited : NodeId → Bool)
    (siblings : List NodeId) (k : NodeId) :
    (forest.adoptedWhere visited).collectorAmong? siblings k =
      forest.collectorAmong? siblings k := by
  simp only [collectorAmong?, collectsAt_adoptedWhere]

/-- nor the last of some siblings that collects, -/
@[simp] theorem lastCollector?_adoptedWhere (forest : Forest) (visited : NodeId → Bool)
    (siblings : List NodeId) :
    (forest.adoptedWhere visited).lastCollector? siblings = forest.lastCollector? siblings := by
  rw [lastCollector?, lastCollector?, collectsAt_adoptedWhere]

/-- nor the length of those that do not collect. -/
@[simp] theorem plainLength_adoptedWhere (forest : Forest) (visited : NodeId → Bool)
    (ids : List NodeId) :
    (forest.adoptedWhere visited).plainLength ids = forest.plainLength ids := by
  induction ids with
  | nil => rfl
  | cons k ids ih =>
    rw [plainLength, plainLength, ih, getElem?_adoptedWhere]
    cases forest[k]? with
    | none => rfl
    | some node =>
      cases hcollects : node.collects
      · simp [adoptedNode_collects, adoptedNode_length, hcollects]
      · simp [adoptedNode_collects, hcollects]

/-- So what is told of the children of a slot can be read off the array as it
was before all visits. -/
@[simp] theorem absorptions_adoptedWhere (forest : Forest) (visited : NodeId → Bool) (p : NodeId)
    (siblings : List NodeId) :
    (forest.adoptedWhere visited).absorptions p siblings = forest.absorptions p siblings := by
  simp only [absorptions, collectsAt_adoptedWhere, collectorAmong?_adoptedWhere]

/-- Before the first visit the array is as it was linked. -/
theorem adoptedWhere_none (forest : Forest) :
    forest.adoptedWhere (fun _ => false) = forest.familyLinked := by
  refine Array.ext_getElem? fun k => ?_
  rw [getElem?_adoptedWhere, getElem?_familyLinked]
  congr 1
  funext node
  rw [adoptedNode_of_not_visited (by cases node.parent <;> rfl)]
  rfl

/-- Only the slots of the array can have been visited, so sets that agree on
them lead to the same array. -/
theorem adoptedWhere_congr (hclosed : forest.Closed)
    (h : ∀ k < forest.size, visited k = visited' k) :
    forest.adoptedWhere visited = forest.adoptedWhere visited' := by
  refine Array.ext_getElem? fun k => ?_
  rw [getElem?_adoptedWhere, getElem?_adoptedWhere]
  by_cases hk : k < forest.size
  · rw [Array.getElem?_eq_getElem hk, Option.map_some, Option.map_some, adoptedNode, adoptedNode,
      h k hk]
    have hany : forest[k].parent.any visited = forest[k].parent.any visited' := by
      cases hp : forest[k].parent with
      | none => rfl
      | some p =>
        have hparent : forest.parent? k = some p := by
          simp [parent?, Array.getElem?_eq_getElem hk, hp]
        exact h p (hclosed k p hparent)
    rw [hany]
  · rw [Array.getElem?_eq_none (Nat.le_of_not_lt hk)]
    rfl

/-! ### The parents after the pass -/

/-- The collecting sibling that takes in a child of `p` is the first one behind
it. -/
theorem collectorAmong?_family_eq_some_iff :
    forest.collectorAmong? (forest.family (some p)) k = some c ↔
      (k < c ∧ forest.parent? c = some p ∧ forest.collectsAt c = true) ∧
        ∀ d < c, k < d → forest.parent? d = some p → forest.collectsAt d = false := by
  rw [collectorAmong?, family, List.find?_filter, List.find?_range_eq_some]
  constructor
  · rintro ⟨hc, -, hbefore⟩
    simp only [Bool.and_eq_true, decide_eq_true_eq] at hc
    refine ⟨⟨hc.2.1, hc.1, hc.2.2⟩, fun d hd hkd hp => ?_⟩
    simpa [hp, hkd] using hbefore d hd
  · rintro ⟨⟨hkc, hp, hcollects⟩, hbefore⟩
    refine ⟨by simp [hp, hkc, hcollects], List.mem_range.2 (lt_size_of_parent hp), fun d hd => ?_⟩
    rw [Bool.not_eq_true', ← Bool.not_eq_true]
    simpa using fun hdp hkd => hbefore d hd hkd hdp

/-- Nothing takes in a child of `p` if no sibling behind it collects. -/
theorem collectorAmong?_family_eq_none_iff :
    forest.collectorAmong? (forest.family (some p)) k = none ↔
      ∀ c, k < c → forest.parent? c = some p → forest.collectsAt c = false := by
  rw [collectorAmong?, List.find?_eq_none]
  simp only [mem_family_some, Bool.and_eq_true, decide_eq_true_eq, not_and, Bool.not_eq_true]
  exact ⟨fun h c hkc hp => h c hp hkc, fun h c hp hkc => h c hkc hp⟩

/-- Under a visited slot, a child goes under the collecting sibling that takes
it in, or stays. -/
theorem adoptedParent_of_visited (hp : forest.parent? k = some p) (hv : visited p = true) :
    forest.adoptedParent visited k =
      (forest.collectorAmong? (forest.family (some p)) k).or (some p) := by
  simp [adoptedParent, hp, hv]

/-- Under a slot that was not visited, a child stays. -/
theorem adoptedParent_of_not_visited (hp : forest.parent? k = some p) (hv : visited p = false) :
    forest.adoptedParent visited k = some p := by
  simp [adoptedParent, hp, hv]

/-- A slot keeps its parent, or it goes under a collecting sibling behind it,
and then their parent was visited. What is above a slot is thus never far from
what was above it before. -/
theorem adoptedParent_cases {q : NodeId} (h : forest.adoptedParent visited k = some q) :
    forest.parent? k = some q ∨
      ∃ p, forest.parent? k = some p ∧ forest.parent? q = some p ∧ visited p = true ∧
        forest.collectsAt q = true ∧ k < q := by
  cases hp : forest.parent? k with
  | none => simp [adoptedParent, hp] at h
  | some p =>
    cases hv : visited p with
    | false =>
      rw [adoptedParent_of_not_visited hp hv] at h
      exact Or.inl h
    | true =>
      rw [adoptedParent_of_visited hp hv] at h
      rcases Option.or_eq_some_iff.1 h with hcollector | ⟨-, hsame⟩
      · obtain ⟨⟨hkq, hq, hcollects⟩, -⟩ := collectorAmong?_family_eq_some_iff.1 hcollector
        exact Or.inr ⟨p, rfl, hq, hv, hcollects, hkq⟩
      · exact Or.inl hsame

/-- Where no slot with a parent collects, no parent changes, whoever is
visited. -/
theorem adoptedParent_eq_wayUp
    (hplain : ∀ c p, forest.parent? c = some p → forest.collectsAt c = false)
    (visited : NodeId → Bool) : forest.adoptedParent visited = forest.wayUp := by
  funext k
  cases hp : forest.parent? k with
  | none => simp [adoptedParent, hp]
  | some p =>
    have hnone : forest.collectorAmong? (forest.family (some p)) k = none :=
      collectorAmong?_family_eq_none_iff.2 fun c _ hc => hplain c p hc
    simp [adoptedParent, hp, hnone]

/-- Only slots of the array have a parent after the visits. -/
theorem adoptedParent_within (forest : Forest) (visited : NodeId → Bool) :
    (forest.adoptedParent visited).Within forest.size := by
  intro k p h
  cases hq : forest.parent? k with
  | none => simp [adoptedParent, hq] at h
  | some q => exact lt_size_of_parent hq

/-- Parents stay in the array. -/
theorem adoptedParent_lt (hclosed : forest.Closed)
    (h : forest.adoptedParent visited k = some p) : p < forest.size := by
  rcases adoptedParent_cases h with hsame | ⟨q, -, hq, -⟩
  · exact hclosed k p hsame
  · exact lt_size_of_parent hq

/-- A slot that goes under a sibling goes under a later one, so no cycle comes
about. -/
theorem adoptedParent_acyclic (hacyclic : forest.wayUp.Acyclic) (visited : NodeId → Bool) :
    (forest.adoptedParent visited).Acyclic := by
  -- A link goes one slot up in the input, or stays as high and goes on in the array.
  refine WayUp.acyclic_of_measure (fun k =>
    (forest.size + 1) * (forest.wayUp.ascent forest.size k).length + (forest.size - k)) ?_
  intro k p h
  have hk := forest.adoptedParent_within visited k p h
  have hascent := fun {j q} (hq : forest.parent? j = some q) =>
    WayUp.ascent_of_up forest.wayUp_within hacyclic hq
  rcases adoptedParent_cases h with hsame | ⟨q, hkq, hpq, -, -, hlt⟩
  · rw [hascent hsame, List.length_cons, Nat.mul_succ]
    omega
  · rw [hascent hpq, hascent hkq]
    exact Nat.add_lt_add_left (Nat.sub_lt_sub_left hk hlt) _

end ParseForest.Forest
