import ParseForest.Proofs.Walk.Chains

/-!
# `ParseForest.Proofs.Walk.Below`: walks through a subtree of a linked forest

What the walk below a slot finds is known from `ParseForest.Proofs.Walk.Linked`,
for every slot of the array that is not above itself. This module adds what
becomes of the walk afterwards. A pull may find nothing because the stack is
empty, and then so does every later one; or because a link on the stack leads
out of the array, and then there may be more to find. In a linked forest no link
leads out of it (`Forest.LinksPresent`), so none that comes to the stack does
(`SubtreeWalk.Within.pull`, and `SubtreeWalk.Within.skip` for any number of
pulls). Nothing is the end for good there, also of a walk along a circle:
`SubtreeWalk.Within.pull_skip_eq_none`.

`Forest.relink_walkBelow` puts together what there is to say of walks through
subtrees.
-/

set_option autoImplicit false

namespace ParseForest

variable {forest : Forest} {walk : SubtreeWalk} {k : NodeId} {m n : Nat}

/-- Every link leads to a slot of the array. -/
structure Forest.LinksPresent (forest : Forest) : Prop where
  child_lt : ∀ k c : NodeId, forest[k]?.bind Node.child = some c → c < forest.size
  next_lt : ∀ k c : NodeId, forest[k]?.bind Node.next = some c → c < forest.size

namespace SubtreeWalk

/-- Nothing but slots of the array waits on the stack. -/
def Within (forest : Forest) (walk : SubtreeWalk) : Prop := ∀ k ∈ walk.stack, k < forest.size

namespace Within

/-- A pull puts links on the stack, and these lead to slots of the array. -/
theorem pull (h : walk.Within forest) (hlinks : forest.LinksPresent) :
    (Walk.pull forest walk).2.Within forest := by
  obtain ⟨stack⟩ := walk
  cases stack with
  | nil => exact h
  | cons id stack =>
    have hid : id < forest.size := h id List.mem_cons_self
    have hnode : forest[id]? = some forest[id] := Array.getElem?_eq_getElem hid
    rw [Forest.pull_subtree_cons hnode]
    intro c hc
    simp only [List.mem_append, Option.mem_toList] at hc
    rcases hc with hchild | hnext | hstack
    · exact hlinks.child_lt id c (by rw [hnode]; exact hchild)
    · exact hlinks.next_lt id c (by rw [hnode]; exact hnext)
    · exact h c (List.mem_cons_of_mem id hstack)

/-- So after any number of pulls nothing else waits on the stack. -/
theorem skip (h : walk.Within forest) (hlinks : forest.LinksPresent) (count : Nat) :
    (Walk.skip forest count walk).Within forest := by
  induction count with
  | zero => exact h
  | succ count ih => exact ih.pull hlinks

/-- If a pull finds nothing, the stack is empty, and the pull leaves the walk as
it was. -/
theorem pull_eq_self (h : walk.Within forest) (hnone : (Walk.pull forest walk).1 = none) :
    (Walk.pull forest walk).2 = walk := by
  obtain ⟨stack⟩ := walk
  cases stack with
  | nil => rfl
  | cons id stack =>
    have hid : id < forest.size := h id List.mem_cons_self
    rw [Forest.pull_subtree_cons (Array.getElem?_eq_getElem hid)] at hnone
    cases hnone

/-- After a pull that finds nothing, no pull finds anything. The walk may be one
along a circle; it is enough that all links lead to slots. -/
theorem pull_skip_eq_none (h : walk.Within forest) (hlinks : forest.LinksPresent) (hmn : m ≤ n)
    (hnone : (Walk.pull forest (Walk.skip forest m walk)).1 = none) :
    (Walk.pull forest (Walk.skip forest n walk)).1 = none := by
  induction n, hmn using Nat.le_induction with
  | base => exact hnone
  | succ n _ ih =>
    have hstays : Walk.skip forest (n + 1) walk = Walk.skip forest n walk :=
      (h.skip hlinks n).pull_eq_self ih
    rw [hstays]
    exact ih

end Within

end SubtreeWalk

namespace Forest

/-- The links that the parents imply lead to slots of the array. -/
theorem linksPresent_familyLinked (forest : Forest) : forest.familyLinked.LinksPresent := by
  constructor
  · intro k c hc
    rw [getElem?_familyLinked, Option.bind_map, Option.bind_eq_some_iff] at hc
    obtain ⟨node, -, hchild⟩ := hc
    rw [size_familyLinked]
    exact (mem_family.1 (List.mem_of_mem_head? hchild)).1
  · intro k c hc
    rw [getElem?_familyLinked, Option.bind_map, Option.bind_eq_some_iff] at hc
    obtain ⟨node, -, hnext⟩ := hc
    rw [size_familyLinked]
    exact (mem_family.1 (List.mem_of_find?_eq_some hnext)).1

/-- The walk below a slot starts from a link, which leads to a slot of the
array. -/
theorem within_walkBelow (hlinks : forest.LinksPresent) (k : NodeId) :
    (forest.walkBelow k).Within forest := by
  intro c hc
  exact hlinks.child_lt k c (Option.mem_toList.1 hc)

/-- There is nothing below a slot that is not there. -/
theorem walkBelow_of_size_le (hk : forest.size ≤ k) : forest.walkBelow k = ⟨[]⟩ := by
  rw [walkBelow, Array.getElem?_eq_none hk]
  rfl

/-- In a linked forest the walk below a slot that is not above itself ends, in
the array or outside of it, and it finds what is below the slot. -/
theorem walkBelow_yields (hclosed : forest.Closed) (hk : ¬ forest.wayUp.Above k k) :
    Walk.Yields forest.familyLinked (forest.familyLinked.walkBelow k)
        (Walk.items forest.familyLinked (forest.familyLinked.walkBelow k)) ∧
      forest.ListedBelow k
        (Walk.items forest.familyLinked (forest.familyLinked.walkBelow k)) := by
  rcases Nat.lt_or_ge k forest.size with hlt | hle
  · have hlisted := listedBelow_walkBelow hk hlt
    exact ⟨hlisted.walkBelow_yields hlt, hlisted⟩
  · obtain ⟨ids, hids⟩ := exists_listedBelow hk
    have hspread := hids.spread
    rw [firstChild?, family_of_size_le hclosed hle] at hspread
    cases hspread
    have hyields : Walk.Yields forest.familyLinked (⟨[]⟩ : SubtreeWalk) [] := .nil rfl
    rw [walkBelow_of_size_le (by rwa [size_familyLinked]), hyields.items_eq (Nat.zero_le _)]
    exact ⟨hyields, hids⟩

/-- Linking an array that holds all parents succeeds. After that, the walk below
a slot that is not above itself

* ends, and
* finds the slots that have it above them, and each of them once,
* in this order: each child, from the lowest to the highest, and behind it what
  the walk below the child finds.
* It does not come to the siblings of the slot.

Once any walk below a slot has found nothing, it finds nothing more; and below a
slot that is not there it finds nothing at all. -/
theorem relink_walkBelow (hclosed : forest.Closed) :
    ∃ linked, forest.relink = .ok linked ∧
      (∀ k, ¬ forest.wayUp.Above k k →
        Walk.Yields linked (linked.walkBelow k) (Walk.items linked (linked.walkBelow k)) ∧
        (∀ j, j ∈ Walk.items linked (linked.walkBelow k) ↔ forest.wayUp.Above k j) ∧
        (Walk.items linked (linked.walkBelow k)).Nodup ∧
        Walk.items linked (linked.walkBelow k) =
          (forest.family (some k)).flatMap
            (fun c => c :: Walk.items linked (linked.walkBelow c)) ∧
        ∀ j, forest.parent? j = forest.parent? k →
          j ∉ Walk.items linked (linked.walkBelow k)) ∧
      (∀ k m n, m ≤ n →
        (Walk.pull linked (Walk.skip linked m (linked.walkBelow k))).1 = none →
        (Walk.pull linked (Walk.skip linked n (linked.walkBelow k))).1 = none) ∧
      ∀ k, forest.size ≤ k → Walk.Yields linked (linked.walkBelow k) [] := by
  have hlinks := forest.linksPresent_familyLinked
  refine ⟨forest.familyLinked, relink_eq hclosed, fun k hk => ?_, fun k m n => ?_, fun k hk => ?_⟩
  · obtain ⟨hyields, hlisted⟩ := walkBelow_yields hclosed hk
    refine ⟨hyields, hlisted.mem_iff, hlisted.nodup, ?_, fun j hj hmem => ?_⟩
    · -- What the walk finds is what the child link leads to, and that is known in parts:
      -- a child is not above itself either.
      refine hlisted.spread.unique (spread_family fun c hc => ?_)
      have hself := WayUp.not_above_self_of_up (mem_family_some.1 hc) hk
      exact (walkBelow_yields hclosed hself).2
    · -- Siblings are under the same parent, and so not above each other.
      exact WayUp.not_above_of_up_eq hj.symm hk ((hlisted.mem_iff j).1 hmem)
  · exact (within_walkBelow hlinks k).pull_skip_eq_none hlinks
  · rw [walkBelow_of_size_le (by rwa [size_familyLinked])]
    exact .nil rfl

/-- The hypotheses hold of `tangled`, of slot 4 and not of slot 0, which is on a
circle. The walk below slot 4 finds three nodes, and some pulls later it still
finds nothing more. -/
theorem relink_walkBelow_tangled :
    tangled.Closed ∧ ¬ tangled.wayUp.Above 4 4 ∧ tangled.wayUp.Above 0 0 ∧
      ∃ linked, tangled.relink = .ok linked ∧
        Walk.Yields linked (linked.walkBelow 4) [1, 5, 6] ∧
        (Walk.pull linked (Walk.skip linked 8 (linked.walkBelow 4))).1 = none := by
  have hclosed : tangled.Closed := by decide
  have hself : ¬ tangled.wayUp.Above 4 4 := by decide
  have hcircle : tangled.wayUp.Above 0 0 := by decide
  obtain ⟨linked, hlinked, hbelow, hnothing, -⟩ := relink_walkBelow hclosed
  have hcome : (tangled.relink.map fun linked => (Walk.items linked (linked.walkBelow 4),
      (Walk.pull linked (Walk.skip linked 3 (linked.walkBelow 4))).1)) =
        .ok ([1, 5, 6], none) := by decide +kernel
  rw [hlinked] at hcome
  obtain ⟨hitems, hend⟩ := Prod.mk.inj (Except.ok.inj hcome)
  have hyields := (hbelow 4 hself).1
  rw [hitems] at hyields
  exact ⟨hclosed, hself, hcircle, linked, hlinked, hyields, hnothing 4 3 8 (by decide) hend⟩

end Forest

end ParseForest
