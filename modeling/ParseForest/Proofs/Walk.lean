import ParseForest.Proofs.Family
import ParseForest.Walk.Sibling
import ParseForest.Walk.Subtree

/-!
# `ParseForest.Proofs.Walk`: what a walk finds

`Walk.Yields` says what the pulls from a walk find up to the first that finds
nothing; a walk that yields some nodes ends. `Walk.Yields.items_eq` shows that
the bound of a walk cuts off nothing if it is large enough.

A walk along siblings yields the `Forest.Row` from the node ahead. A walk
through a subtree goes on from every node in two ways, so what it yields is
described by `Forest.Spread`: a node, what is below it, and what is behind it.
`Forest.Spread.yields` shows that the stack keeps the ways that are left in
order, and `Forest.Row.spread` makes such a list of a row of siblings.
-/

set_option autoImplicit false

namespace ParseForest

namespace Walk

variable {σ : Type} [Walk σ] {forest : Forest} {walk : σ} {ids ids' : List NodeId}

/-- The pulls from a walk find some nodes one after another, and then
nothing. -/
inductive Yields (forest : Forest) : σ → List NodeId → Prop
  | nil {walk : σ} : (pull forest walk).1 = none → Yields forest walk []
  | cons {walk rest : σ} {id : NodeId} {ids : List NodeId} :
    pull forest walk = (some id, rest) → Yields forest rest ids → Yields forest walk (id :: ids)

/-- A walk finds the same nodes every time. So what it finds can be named by any
list that it yields. -/
theorem Yields.unique (h : Yields forest walk ids) (h' : Yields forest walk ids') :
    ids = ids' := by
  induction h generalizing ids' with
  | nil hnone =>
    cases h' with
    | nil _ => rfl
    | cons hpull _ => simp [hpull] at hnone
  | cons hpull _ ih =>
    cases h' with
    | nil hnone => simp [hpull] at hnone
    | cons hpull' hrest' =>
      rw [hpull] at hpull'
      cases hpull'
      rw [ih hrest']

/-- A walk that yields no more nodes than its bound has them for items. The
nodes are what the pulls find, so the list ends for no other reason than that
the walk does. -/
theorem Yields.items_eq (h : Yields forest walk ids) (hbound : ids.length ≤ bound forest walk) :
    items forest walk = ids := by
  -- What is found is put behind what was found before, so the induction leaves that open.
  suffices honto : ∀ fuel found, ids.length ≤ fuel →
      itemsOnto forest fuel walk found = found ++ ids.toArray by
    simp [items, honto _ #[] hbound]
  clear hbound
  induction h with
  | nil hnone =>
    intro fuel found _
    cases fuel with
    | zero => simp [itemsOnto]
    | succ fuel =>
      rw [itemsOnto]
      split
      · simp_all
      · simp
  | cons hpull _ ih =>
    intro fuel found hlength
    cases fuel with
    | zero => simp at hlength
    | succ fuel =>
      rw [itemsOnto, hpull]
      show itemsOnto forest fuel _ _ = _
      rw [ih fuel _ (Nat.le_of_succ_le_succ hlength)]
      simp

end Walk

namespace Forest

variable {forest : Forest} {ahead link : Option NodeId} {ids rest : List NodeId}
  {stack : List NodeId}

/-- A walk along siblings finds the row from the node ahead. -/
theorem Row.yields (h : forest.Row ahead ids) :
    Walk.Yields forest (⟨ahead⟩ : SiblingWalk) ids := by
  induction h with
  | nil => exact .nil rfl
  | @cons id node rest hnode _ ih =>
    refine .cons ?_ ih
    show SiblingWalk.pull forest ⟨some id⟩ = _
    simp [SiblingWalk.pull, hnode]

/-- The nodes that a link leads to: the one it names, those below this one, and
those behind it. -/
inductive Spread (forest : Forest) : Option NodeId → List NodeId → Prop
  | nil : Spread forest none []
  | cons {id : NodeId} {node : Node} {below behind : List NodeId} :
    forest[id]? = some node → Spread forest node.child below → Spread forest node.next behind →
      Spread forest (some id) (id :: (below ++ behind))

/-- A pull finds the node on top of the stack and puts the links of the node in
its place. -/
theorem pull_subtree_cons {id : NodeId} {node : Node} (hnode : forest[id]? = some node) :
    Walk.pull forest (⟨id :: stack⟩ : SubtreeWalk) =
      (some id, ⟨node.child.toList ++ (node.next.toList ++ stack)⟩) := by
  show SubtreeWalk.pull forest ⟨id :: stack⟩ = _
  simp only [SubtreeWalk.pull, hnode]

/-- A link on top of the stack is followed to the end before the rest of the
stack is. The induction is on what the link leads to, and it leaves the
stack open, since what is behind a node waits there while what is below it is
found. -/
theorem Spread.yields (h : forest.Spread link ids)
    (hrest : Walk.Yields forest (⟨stack⟩ : SubtreeWalk) rest) :
    Walk.Yields forest (⟨link.toList ++ stack⟩ : SubtreeWalk) (ids ++ rest) := by
  induction h generalizing stack rest with
  | nil => exact hrest
  | @cons id node below behind hnode _ _ ihBelow ihBehind =>
    rw [List.cons_append, List.append_assoc]
    -- What is behind the node waits under what is below it.
    exact .cons (pull_subtree_cons hnode) (ihBelow (ihBehind hrest))

/-- A link leads to the same nodes every time. -/
theorem Spread.unique {ids' : List NodeId} (h : forest.Spread link ids)
    (h' : forest.Spread link ids') : ids = ids' := by
  induction h generalizing ids' with
  | nil =>
    cases h'
    rfl
  | cons hnode _ _ ihBelow ihBehind =>
    cases h' with
    | cons hnode' hbelow' hbehind' =>
      rw [hnode] at hnode'
      cases hnode'
      rw [ihBelow hbelow', ihBehind hbehind']

/-- In a row, every node comes with what is below it. It makes what a link leads
to from a row of siblings and one list for each of them. -/
theorem Row.spread {below : NodeId → List NodeId} (h : forest.Row ahead ids)
    (hbelow : ∀ c ∈ ids, forest.Spread (forest[c]?.bind Node.child) (below c)) :
    forest.Spread ahead (ids.flatMap fun c => c :: below c) := by
  induction h with
  | nil => exact .nil
  | @cons id node rest hnode _ ih =>
    have hchild := hbelow id List.mem_cons_self
    rw [hnode] at hchild
    exact .cons hnode hchild (ih fun c hc => hbelow c (List.mem_cons_of_mem _ hc))

end Forest

end ParseForest
