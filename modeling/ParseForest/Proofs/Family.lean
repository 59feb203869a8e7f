import ParseForest.Proofs.Tree

/-!
# `ParseForest.Proofs.Family`: the slots under a parent

`Forest.family` lists the slots under a parent in order, or those at the top
level. A node is linked right if its child is the first of the family under it,
and its next sibling the one behind it in its own family. `Forest.familyLinked`
is the forest with these links, and `Forest.Row` is what is met along them:
`Forest.row_family` shows that it is the family.
-/

set_option autoImplicit false

namespace ParseForest

/-- A node without its way down. -/
def Node.unlinked (node : Node) : Node := { node with child := none, next := none }

/-- Where a node is in a tree. -/
def Node.place (node : Node) : Option NodeId × Option NodeId × Option NodeId :=
  (node.parent, node.child, node.next)

namespace Forest

variable {forest forest' : Forest} {parent ahead : Option NodeId}
  {ids ids' before after : List NodeId} {k p : NodeId}

/-- The slots under a parent, in order; those without one for `none`. -/
def family (forest : Forest) (parent : Option NodeId) : List NodeId :=
  (List.range forest.size).filter fun k => forest.parent? k = parent

/-- The first of the slots under a slot. -/
def firstChild? (forest : Forest) (k : NodeId) : Option NodeId :=
  (forest.family (some k)).head?

/-- The first slot behind a slot with the same parent. -/
def nextSibling? (forest : Forest) (k : NodeId) : Option NodeId :=
  (forest.family (forest.parent? k)).find? fun c => k < c

/-- The forest with the links that the parents imply. -/
def familyLinked (forest : Forest) : Forest :=
  forest.mapIdx fun k node =>
    { node with
      child := forest.firstChild? k
      next := forest.nextSibling? k }

/-- The slots met from a link on, each the next sibling of the one before. -/
inductive Row (forest : Forest) : Option NodeId → List NodeId → Prop
  | nil : Row forest none []
  | cons {id : NodeId} {node : Node} {rest : List NodeId} :
    forest[id]? = some node → Row forest node.next rest → Row forest (some id) (id :: rest)

/-! ### Families -/

/-- A family is the slots of the array with one parent, or those with none. -/
theorem mem_family : k ∈ forest.family parent ↔ k < forest.size ∧ forest.parent? k = parent := by
  simp [family]

/-- For slots under a parent it need not be said that they are in the array,
because others have no parent. -/
theorem mem_family_some : k ∈ forest.family (some p) ↔ forest.parent? k = some p := by
  rw [mem_family]
  exact ⟨And.right, fun h => ⟨lt_size_of_parent h, h⟩⟩

/-- Nothing is under a slot that is not there, if all parents are in the
array. -/
theorem family_of_size_le (hclosed : forest.Closed)
    (hp : forest.size ≤ p) : forest.family (some p) = [] := by
  rw [List.eq_nil_iff_forall_not_mem]
  intro k hk
  exact Nat.not_lt_of_le hp (hclosed k p (mem_family_some.1 hk))

/-- A family is in the order of the array. That is why the first child is the
lowest slot under its parent, and the next sibling the lowest one behind. -/
theorem family_pairwise (forest : Forest) (parent : Option NodeId) :
    (forest.family parent).Pairwise (· < ·) :=
  List.pairwise_lt_range.filter _

/-- No slot comes twice in a family. -/
theorem family_nodup (forest : Forest) (parent : Option NodeId) :
    (forest.family parent).Nodup :=
  List.nodup_range.filter _

/-- A family has no more members than there are slots. So the bound of a walk
along siblings cuts no family short. -/
theorem length_family_le (forest : Forest) (parent : Option NodeId) :
    (forest.family parent).length ≤ forest.size :=
  length_le_size (forest.family_nodup parent) fun _ hk => (mem_family.1 hk).1

/-- Forests of one size with the same parents have the same families, and so,
once they are linked, the same links. -/
theorem family_congr (hsize : forest'.size = forest.size)
    (hparent : ∀ k, forest'.parent? k = forest.parent? k) (parent : Option NodeId) :
    forest'.family parent = forest.family parent := by
  simp only [family, hsize, hparent]

/-- The first sibling from a slot on is the slot itself, or else the first one
behind it. It says how what is known from `k + 1` on changes when slot `k` is
seen. -/
theorem find?_family_from (hk : k < forest.size) (parent : Option NodeId) :
    (forest.family parent).find? (fun c => k ≤ c) =
      if forest.parent? k = parent then some k
      else (forest.family parent).find? fun c => k + 1 ≤ c := by
  simp only [family, List.find?_filter]
  split
  · rename_i hparent
    rw [List.find?_range_eq_some]
    refine ⟨by simp [hparent], by simpa using hk, fun j hj => ?_⟩
    simp [Nat.not_le_of_lt hj]
  · rename_i hparent
    congr 1
    funext c
    by_cases hc : c = k
    · subst hc
      simp [hparent]
    · have hle : k ≤ c ↔ k + 1 ≤ c :=
        ⟨fun h => Nat.lt_of_le_of_ne h (Ne.symm hc), Nat.le_of_succ_le⟩
      simp [hle]

/-! ### Links -/

/-- What a slot holds when the links are set: the same node, but for the links.
All other facts about `Forest.familyLinked` are read off this. -/
theorem getElem?_familyLinked (forest : Forest) (k : NodeId) :
    forest.familyLinked[k]? = forest[k]?.map fun node =>
      { node with
        child := forest.firstChild? k
        next := forest.nextSibling? k } := by
  rw [familyLinked, Array.getElem?_mapIdx]

/-- Setting the links takes out no slot and adds none. -/
@[simp] theorem size_familyLinked (forest : Forest) : forest.familyLinked.size = forest.size :=
  Array.size_mapIdx

/-- Setting the links changes no parent, so the way up is what it was. -/
@[simp] theorem parent?_familyLinked (forest : Forest) (k : NodeId) :
    forest.familyLinked.parent? k = forest.parent? k := by
  rw [parent?, getElem?_familyLinked, parent?]
  cases forest[k]? <;> rfl

/-- If all parents are in the array, they still are when the links are set. -/
theorem Closed.familyLinked (hclosed : forest.Closed) : forest.familyLinked.Closed := by
  intro k p hp
  rw [parent?_familyLinked] at hp
  rw [size_familyLinked]
  exact hclosed k p hp

/-- The links before do not matter for the links after: arrays that differ in
nothing else become the same. -/
theorem familyLinked_congr
    (h : forest'.map Node.unlinked = forest.map Node.unlinked) :
    forest'.familyLinked = forest.familyLinked := by
  have hnode : ∀ k : NodeId, forest'[k]?.map Node.unlinked = forest[k]?.map Node.unlinked := by
    intro k
    rw [← Array.getElem?_map, ← Array.getElem?_map, h]
  have hparents : forest'.map Node.parent = forest.map Node.parent := by
    have hmap := congrArg (Array.map Node.parent) h
    rw [Array.map_map, Array.map_map] at hmap
    exact hmap
  have hparent := parent?_of_map_parent hparents
  have hfamily := family_congr (size_of_map_parent hparents) hparent
  refine Array.ext_getElem? fun k => ?_
  rw [getElem?_familyLinked, getElem?_familyLinked, firstChild?, firstChild?, nextSibling?,
    nextSibling?, hfamily, hparent k, hfamily]
  have := congrArg (Option.map fun node : Node => { node with
    child := (forest.family (some k)).head?
    next := (forest.family (forest.parent? k)).find? fun c => k < c }) (hnode k)
  rw [Option.map_map, Option.map_map] at this
  exact this

/-- Where the nodes of a linked forest are follows from its parents. Names,
positions and flags have no part in it. -/
theorem map_place_familyLinked (hsize : forest.size = forest'.size)
    (hparent : ∀ k, forest.parent? k = forest'.parent? k) :
    forest.familyLinked.map Node.place = forest'.familyLinked.map Node.place := by
  have hplace : ∀ (forest : Forest) (k : NodeId), (forest.familyLinked.map Node.place)[k]? =
      if k < forest.size then
        some (forest.parent? k, forest.firstChild? k, forest.nextSibling? k)
      else none := by
    intro forest k
    rw [Array.getElem?_map, getElem?_familyLinked]
    split
    · rename_i hk
      have hnode := Array.getElem?_eq_getElem hk
      rw [Forest.parent?_eq hnode, hnode]
      rfl
    · rename_i hk
      rw [Array.getElem?_eq_none (Nat.le_of_not_lt hk)]
      rfl
  have hfamily := family_congr hsize hparent
  refine Array.ext_getElem? fun k => ?_
  rw [hplace, hplace, hsize, hparent, firstChild?, firstChild?, nextSibling?, nextSibling?,
    hfamily, hfamily, hparent]

/-- Setting the links changes nothing else about any node. -/
theorem map_unlinked_familyLinked (forest : Forest) :
    forest.familyLinked.map Node.unlinked = forest.map Node.unlinked := by
  refine Array.ext_getElem? fun k => ?_
  rw [Array.getElem?_map, Array.getElem?_map, getElem?_familyLinked]
  cases forest[k]? <;> rfl

/-- Linking what is linked changes nothing, since the links that were there are
not looked at. -/
theorem familyLinked_familyLinked (forest : Forest) :
    forest.familyLinked.familyLinked = forest.familyLinked :=
  familyLinked_congr forest.map_unlinked_familyLinked

/-! ### Rows -/

/-- A row starts with the node that its link leads to. -/
theorem Row.ahead_eq (h : forest.Row ahead ids) : ahead = ids.head? := by
  cases h <;> rfl

/-- The links say what a row is: from one link on there is one row at most. -/
theorem Row.unique (h : forest.Row ahead ids) (h' : forest.Row ahead ids') : ids = ids' := by
  induction h generalizing ids' with
  | nil =>
    cases h'
    rfl
  | cons hnode _ ih =>
    cases h' with
    | cons hnode' hrest' =>
      rw [hnode] at hnode'
      cases hnode'
      rw [ih hrest']

/-- From any of its nodes on, a row is a row. The link there is that of the node
before. -/
theorem Row.suffix (h : forest.Row ahead (before ++ after)) : forest.Row after.head? after := by
  induction before generalizing ahead with
  | nil => exact h.ahead_eq ▸ h
  | cons id before ih =>
    cases h with
    | cons _ hrest => exact ih hrest

/-- No node comes twice in a row. What is behind it would come twice as well,
and so on without end. -/
theorem Row.nodup (h : forest.Row ahead ids) : ids.Nodup := by
  induction h with
  | nil => exact List.nodup_nil
  | @cons id node rest hnode hrest ih =>
    refine List.nodup_cons.2 ⟨fun hmem => ?_, ih⟩
    obtain ⟨before, after, rfl⟩ := List.append_of_mem hmem
    -- The row from the second time on is the row from the first time on, and shorter.
    have hagain := hrest.suffix.unique (Row.cons hnode hrest)
    have hlength := congrArg List.length hagain
    simp only [List.length_cons, List.length_append] at hlength
    omega

/-- Everything in a row is in the array. A link out of the array leads to no
row. -/
theorem Row.lt_size (h : forest.Row ahead ids) (hk : k ∈ ids) : k < forest.size := by
  induction h with
  | nil => cases hk
  | cons hnode _ ih =>
    rcases List.mem_cons.1 hk with rfl | hk
    · exact (Array.getElem?_eq_some_iff.1 hnode).1
    · exact ih hk

/-- A row is found in no more steps than there are nodes. So where one exists,
`Forest.fetchRow` finds it with as much fuel. -/
theorem Row.length_le (h : forest.Row ahead ids) : ids.length ≤ forest.size :=
  length_le_size h.nodup fun _ => h.lt_size

/-- Only the next siblings matter for what is met along them. A pass that
changes other fields leaves every row as it is. -/
theorem Row.congr (h : forest.Row ahead ids)
    (hnext : ∀ k : NodeId, forest'[k]?.map Node.next = forest[k]?.map Node.next) :
    forest'.Row ahead ids := by
  induction h with
  | nil => exact .nil
  | @cons id node rest hnode _ ih =>
    have hid := hnext id
    rw [hnode, Option.map_some, Option.map_eq_some_iff] at hid
    obtain ⟨node', hnode', heq⟩ := hid
    exact .cons hnode' (heq ▸ ih)

/-- Going along the next siblings from a member of a family on meets the rest of
it. The induction is on the rest, with the members that are behind split off in
front. -/
theorem row_of_suffix (before after : List NodeId)
    (h : forest.family parent = before ++ after) : forest.familyLinked.Row after.head? after := by
  induction after generalizing before with
  | nil => exact .nil
  | cons k after ih =>
    have hmem : k ∈ forest.family parent := by rw [h]; simp
    obtain ⟨hk, hparent⟩ := mem_family.1 hmem
    have hnode : forest.familyLinked[k]? = some { forest[k] with
        child := forest.firstChild? k
        next := forest.nextSibling? k } := by
      rw [getElem?_familyLinked, Array.getElem?_eq_getElem hk]
      rfl
    refine .cons hnode ?_
    have hnext : forest.nextSibling? k = after.head? := by
      -- The siblings before `k` do not lie behind it, and the first one after it does.
      have hsorted := forest.family_pairwise parent
      rw [h, List.pairwise_append] at hsorted
      obtain ⟨-, hafter, hbefore⟩ := hsorted
      have hnone : before.find? (fun c => k < c) = none := by
        rw [List.find?_eq_none]
        intro c hc
        have := hbefore c hc k List.mem_cons_self
        simpa using Nat.le_of_lt this
      rw [nextSibling?, hparent, h, List.find?_append, hnone, Option.none_or]
      cases after with
      | nil => simp
      | cons c after => simp [List.rel_of_pairwise_cons hafter List.mem_cons_self]
    show forest.familyLinked.Row (forest.nextSibling? k) after
    rw [hnext]
    exact ih (before ++ [k]) (by simp [h])

/-- Going along the next siblings from the first member of a family on meets all
of it, and then the row ends. -/
theorem row_family (forest : Forest) (parent : Option NodeId) :
    forest.familyLinked.Row (forest.family parent).head? (forest.family parent) :=
  row_of_suffix [] _ rfl

end Forest

end ParseForest
