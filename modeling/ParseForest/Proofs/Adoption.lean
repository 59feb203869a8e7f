import ParseForest.Proofs.Adoption.Brood
import ParseForest.Proofs.Links

/-!
# `ParseForest.Proofs.Adoption`: what the pass makes of a tree

`Adoption.Reached` is the invariant between two visits: the array is as it is to
be with the children of the slots visited so far taken in
(`Forest.adoptedWhere`), no slot was visited or waits twice, all of them are
walked, and every child of a visited slot that does not collect was visited or
waits. A slot is put on the stack by its parent alone, and its parent is visited
once; that is all it takes for the pass to end.

`Adoption.Reached.visit_cases` is one visit and `Adoption.Reached.run_cases` all
that are left. `Forest.adoptRuns_cases` says what comes of a tree: all walked
slots are visited, or for one of them the length of the children that do not
collect leaves 64 bits.
-/

set_option autoImplicit false

namespace ParseForest

namespace Forest

variable {forest : Forest} {visited : NodeId → Bool} {k p : NodeId} {ahead : Option NodeId}
  {ids : List NodeId}

/-- A row of no more nodes than `fuel` is found from end to end, behind what was
found before. The induction is on the row, since the search follows it node by
node. -/
theorem Row.fetchRow_eq (h : forest.Row ahead ids) {fuel : Nat} (hfuel : ids.length ≤ fuel)
    (found : Array NodeId) : forest.fetchRow fuel ahead found = .ok (found ++ ids.toArray) := by
  induction h generalizing fuel found with
  | nil => cases fuel <;> simp [fetchRow]
  | @cons id node rest hnode _ ih =>
    cases fuel with
    | zero => simp at hfuel
    | succ fuel =>
      rw [fetchRow, fetch_eq_ok hnode, except_ok_bind, ih (Nat.le_of_succ_le_succ hfuel)]
      simp

/-- In the middle of the pass, the children of a slot that was not visited yet
are all found. Adoption changes no next sibling, so the row of the family is the
one that the parents of the input imply. -/
theorem fetchRow_adoptedWhere (forest : Forest) (visited : NodeId → Bool) (p : NodeId) :
    (forest.adoptedWhere visited).fetchRow forest.size (forest.firstChild? p) #[] =
      .ok (forest.family (some p)).toArray := by
  have hrow : (forest.adoptedWhere visited).Row (forest.firstChild? p)
      (forest.family (some p)) := by
    refine (forest.row_family (some p)).congr fun k => ?_
    rw [getElem?_adoptedWhere, getElem?_familyLinked]
    cases forest[k]? <;> simp [adoptedNode_next]
  simpa using hrow.fetchRow_eq (forest.length_family_le (some p)) #[]

/-- A slot with nothing changed but its links starts the siblings where it did
before. The visits so far were to other slots, so they moved no child of `p`. -/
theorem headOffset_adoptedWhere (hp : visited p = false) (node node' : Node)
    (hoffset : node'.offset = node.offset) :
    (((forest.family (some p)).head?.bind ((forest.adoptedWhere visited)[·]?)).getD node').offset =
      (((forest.family (some p)).head?.bind (forest[·]?)).getD node).offset := by
  cases hhead : (forest.family (some p)).head? with
  | none => exact hoffset
  | some head =>
    have hparent := mem_family_some.1 (List.mem_of_head? hhead)
    have hlt := lt_size_of_parent hparent
    have hany : forest[head].parent.any visited = false := by
      have : forest[head].parent = some p := by
        simpa [parent?, Array.getElem?_eq_getElem hlt] using hparent
      simp [this, hp]
    simp [getElem?_adoptedWhere, Array.getElem?_eq_getElem hlt, adoptedNode_of_not_visited hany]

/-- Taking in the children of one more slot: what a visit makes of the array
with some slots visited is the array with that slot visited too. The slot must
not be its own parent, since the visit changes both it and its children. -/
theorem takenIn_adoptedWhere (hp : visited p = false) (hself : forest.parent? p ≠ some p) :
    (forest.adoptedWhere visited).takenIn p (forest.family (some p)) =
      forest.adoptedWhere fun k => k = p || visited k := by
  refine Array.ext_getElem? fun k => ?_
  rw [getElem?_takenIn, getElem?_adoptedWhere, getElem?_adoptedWhere, Option.map_map]
  cases hnode : forest[k]? with
  | none => rfl
  | some node =>
    have hparent : forest.parent? k = node.parent := by simp [parent?, hnode]
    simp only [Option.map_some, Function.comp_apply, Option.some.injEq]
    by_cases hchild : node.parent = some p
    · have hmem : k ∈ forest.family (some p) := mem_family_some.2 (hparent.trans hchild)
      have hkp : k ≠ p := by
        intro heq
        subst heq
        exact hself (hparent.trans hchild)
      -- Before the visit nothing but links has changed among the children of `p`.
      have hany : node.parent.any visited = false := by simp [hchild, hp]
      have hany' : (node.parent.any fun k => k = p || visited k) = true := by simp [hchild]
      rw [if_pos hmem, adoptedNode_of_not_visited hany, adoptedNode, if_pos hany']
      simp [adoptAmong, hchild, hkp, headOffset_adoptedWhere hp node]
    · have hmem : k ∉ forest.family (some p) := fun hmem =>
        hchild (hparent.symm.trans (mem_family_some.1 hmem))
      -- Elsewhere the visit makes no difference, except for the first child of `p`.
      have hany : node.parent.any (fun k => k = p || visited k) = node.parent.any visited := by
        cases hq : node.parent with
        | none => rfl
        | some q =>
          have hqp : q ≠ p := by
            intro heq
            subst heq
            exact hchild hq
          simp [hqp]
      rw [if_neg hmem, adoptedNode, adoptedNode, hany]
      by_cases hkp : k = p
      · subst hkp
        simp [hp]
      · simp [hkp]

end Forest

namespace Adoption

variable {forest forest' : Forest} {visited waiting : List NodeId} {adoption : Adoption}
  {events : Array Event} {p : NodeId}

/-- The children of some slots went through adoption, the last one's first in
the list. -/
structure Reached (forest : Forest) (visited : List NodeId) (adoption : Adoption) : Prop where
  /-- The array is as it is to be after these visits. -/
  forest_eq : adoption.forest = forest.adoptedWhere fun k => k ∈ visited
  /-- What was told was told visit by visit. -/
  events_eq : adoption.events.toList =
    visited.reverse.flatMap fun p => forest.absorptions p (forest.family (some p))
  /-- No slot was visited or waits twice, or both. -/
  nodup : (visited ++ adoption.waiting).Nodup
  lt_size : ∀ k ∈ visited ++ adoption.waiting, k < forest.size
  walked : ∀ k ∈ visited ++ adoption.waiting, forest.Walked k
  root_mem : NodeId.root ∈ visited ++ adoption.waiting
  /-- A slot waits because its parent was visited. -/
  parent_mem : ∀ k ∈ visited ++ adoption.waiting, ∀ p, forest.parent? k = some p → p ∈ visited
  /-- A visit forgets no child that does not collect. -/
  children_mem : ∀ p ∈ visited, ∀ k, forest.parent? k = some p →
    forest.collectsAt k = false → k ∈ visited ++ adoption.waiting
  /-- The sums of the visits were all formed. -/
  fits : ∀ p ∈ visited, forest.plainLength (forest.family (some p)) < UInt64.size

/-- Before the first visit only the root waits, and the array is the linked
one. -/
theorem reached_linked (hsize : 0 < forest.size) (hroot : forest.parent? NodeId.root = none) :
    Reached forest [] ⟨forest.familyLinked, [NodeId.root], #[]⟩ where
  forest_eq := by simpa using (forest.adoptedWhere_none).symm
  events_eq := rfl
  nodup := by simp
  lt_size := by simpa using hsize
  walked := by simp [Forest.Walked]
  root_mem := by simp
  parent_mem := by simp [hroot]
  children_mem := by simp
  fits := by simp

namespace Reached

/-- The slot that waits on top was not visited, because none is reached
twice. -/
theorem top_not_mem (h : Reached forest visited ⟨forest', p :: waiting, events⟩) :
    p ∉ visited := fun hmem =>
  List.disjoint_of_nodup_append h.nodup hmem List.mem_cons_self

/-- No slot is its own parent where a visit is next: its parent was visited, and
it was not. -/
theorem top_parent_ne (h : Reached forest visited ⟨forest', p :: waiting, events⟩) :
    forest.parent? p ≠ some p := fun hp =>
  h.top_not_mem (h.parent_mem p List.mem_append_cons_self p hp)

/-- The visit finds the children where the links of the input lead. What is left
of it is the loop over the family, which `Brood.meetAll_cases` is about. -/
theorem visit_eq (h : Reached forest visited ⟨forest', p :: waiting, events⟩) :
    visit ⟨forest', waiting, events⟩ p =
      (forest.family (some p)).foldlM (Brood.meet p) ⟨⟨forest', waiting, events⟩, #[], 0⟩ >>=
        fun brood => .ok brood.adoption := by
  have hforest : forest' = forest.adoptedWhere fun k => k ∈ visited := h.forest_eq
  have hlt := h.lt_size p List.mem_append_cons_self
  have hfetch : forest'.fetch p =
      .ok (forest.adoptedNode (fun k => k ∈ visited) p forest[p]) := by
    refine Forest.fetch_eq_ok ?_
    rw [hforest, Forest.getElem?_adoptedWhere, Array.getElem?_eq_getElem hlt]
    rfl
  have hchild : (forest.adoptedNode (fun k => k ∈ visited) p forest[p]).child =
      forest.firstChild? p := by
    simp [Forest.adoptedNode, h.top_not_mem]
  have hrow : forest'.fetchRow forest'.size (forest.firstChild? p) #[] =
      .ok (forest.family (some p)).toArray := by
    rw [hforest, Forest.size_adoptedWhere]
    exact forest.fetchRow_adoptedWhere _ p
  rw [visit, hfetch, except_ok_bind, hchild, hrow, except_ok_bind, List.foldlM_toArray]
  rfl

/-- After a visit the children that do not collect wait on top, the last one
first. Whether they collect can be asked of the input, since no flag is
changed. -/
theorem waiting_of_passed (h : Reached forest visited ⟨forest', p :: waiting, events⟩)
    {brood : Brood}
    (hpassed : Brood.Passed ⟨forest', waiting, events⟩ p (forest.family (some p)) brood) :
    brood.adoption.waiting =
      ((forest.family (some p)).filter fun k => !forest.collectsAt k).reverse ++ waiting := by
  have hforest : forest' = forest.adoptedWhere fun k => k ∈ visited := h.forest_eq
  rw [hpassed.waiting_eq]
  simp only [hforest, Forest.collectsAt_adoptedWhere]

/-- The slots reached after a visit are those reached before and the new ones,
none twice. The order is another one, but no part of `Adoption.Reached` depends
on it. -/
theorem perm_of_passed (h : Reached forest visited ⟨forest', p :: waiting, events⟩)
    {brood : Brood}
    (hpassed : Brood.Passed ⟨forest', waiting, events⟩ p (forest.family (some p)) brood) :
    List.Perm (p :: visited ++ brood.adoption.waiting)
      (((forest.family (some p)).filter fun k => !forest.collectsAt k).reverse ++
        (visited ++ p :: waiting)) := by
  rw [h.waiting_of_passed hpassed]
  exact (List.perm_append_comm_assoc _ _ _).trans (List.perm_middle.symm.append_left _)

/-- A visit that has gone through all children leaves one more slot visited. The
children are new, because each slot waits on account of its parent, and the
parent is visited here for the first time. -/
theorem of_passed (h : Reached forest visited ⟨forest', p :: waiting, events⟩)
    (hroot : forest.parent? NodeId.root = none) {brood : Brood}
    (hpassed : Brood.Passed ⟨forest', waiting, events⟩ p (forest.family (some p)) brood) :
    Reached forest (p :: visited) brood.adoption := by
  have hforest : forest' = forest.adoptedWhere fun k => k ∈ visited := h.forest_eq
  have hevents : events.toList =
      visited.reverse.flatMap fun p => forest.absorptions p (forest.family (some p)) := h.events_eq
  have hperm := h.perm_of_passed hpassed
  have hmem : ∀ k, k ∈ p :: visited ++ brood.adoption.waiting ↔
      (forest.parent? k = some p ∧ forest.collectsAt k = false) ∨ k ∈ visited ++ p :: waiting := by
    intro k
    rw [hperm.mem_iff, List.mem_append, List.mem_reverse, List.mem_filter,
      Forest.mem_family_some, Bool.not_eq_true']
  constructor
  case forest_eq =>
    rw [hpassed.forest_eq, hforest]
    have hstep : (forest.adoptedWhere fun k => k ∈ visited).takenIn p (forest.family (some p)) =
        forest.adoptedWhere fun k => k = p || decide (k ∈ visited) :=
      Forest.takenIn_adoptedWhere (by simpa using h.top_not_mem) h.top_parent_ne
    simpa using hstep
  case events_eq =>
    rw [hpassed.events_eq, hevents]
    simp [hforest]
  case nodup =>
    rw [hperm.nodup_iff, List.nodup_append]
    refine ⟨List.nodup_reverse.2 ((forest.family_nodup _).filter _), h.nodup, ?_⟩
    -- The parent of a slot reached before was visited before, and `p` was not.
    intro k hnew j hold heq
    subst heq
    have hparent := Forest.mem_family_some.1 (List.mem_of_mem_filter (List.mem_reverse.1 hnew))
    exact h.top_not_mem (h.parent_mem k hold p hparent)
  case lt_size =>
    intro k hk
    rcases (hmem k).1 hk with ⟨hparent, -⟩ | hold
    · exact Forest.lt_size_of_parent hparent
    · exact h.lt_size k hold
  case walked =>
    intro k hk
    rcases (hmem k).1 hk with ⟨hparent, hplain⟩ | hold
    · exact (h.walked p List.mem_append_cons_self).of_parent hroot hparent hplain
    · exact h.walked k hold
  case root_mem => exact (hmem _).2 (Or.inr h.root_mem)
  case parent_mem =>
    intro k hk q hq
    rcases (hmem k).1 hk with ⟨hparent, -⟩ | hold
    · rw [hparent] at hq
      cases hq
      exact List.mem_cons_self
    · exact List.mem_cons_of_mem _ (h.parent_mem k hold q hq)
  case children_mem =>
    intro q hq k hk hplain
    rcases List.mem_cons.1 hq with rfl | hq
    · exact (hmem k).2 (Or.inl ⟨hk, hplain⟩)
    · exact (hmem k).2 (Or.inr (h.children_mem q hq k hk hplain))
  case fits =>
    intro q hq
    rcases List.mem_cons.1 hq with rfl | hq
    · -- The sum was formed, so it is one that 64 bits hold.
      have hlength := hpassed.length_eq
      simp only [hforest, Forest.plainLength_adoptedWhere] at hlength
      rw [← hlength]
      exact brood.length.toNat_lt_size
    · exact h.fits q hq

/-- The visit goes through all children, or finds that they are too long
together. The demands of `Brood.meetAll_cases` are met: a family is in order, in
the array, and not its own parent's member. -/
theorem visit_passed_cases (h : Reached forest visited ⟨forest', p :: waiting, events⟩) :
    (∃ brood, visit ⟨forest', waiting, events⟩ p = .ok brood.adoption ∧
        Brood.Passed ⟨forest', waiting, events⟩ p (forest.family (some p)) brood) ∨
      (visit ⟨forest', waiting, events⟩ p = .error .sizeOverflow ∧
        UInt64.size ≤ forest.plainLength (forest.family (some p))) := by
  have hforest : forest' = forest.adoptedWhere fun k => k ∈ visited := h.forest_eq
  have hpresent : ∀ k ∈ forest.family (some p), k < forest'.size := by
    intro k hk
    rw [hforest, Forest.size_adoptedWhere]
    exact (Forest.mem_family.1 hk).1
  have hp : p ∉ forest.family (some p) := fun hp =>
    h.top_parent_ne (Forest.mem_family_some.1 hp)
  rw [h.visit_eq]
  rcases Brood.meetAll_cases ⟨forest', waiting, events⟩ p (forest.family (some p))
    (forest.family_pairwise _) hpresent hp with ⟨brood, hbrood, hpassed⟩ | ⟨herror, hlong⟩
  · rw [hbrood]
    exact Or.inl ⟨brood, rfl, hpassed⟩
  · rw [herror]
    rw [show forest'.plainLength (forest.family (some p)) =
      forest.plainLength (forest.family (some p)) by simp [hforest]] at hlong
    exact Or.inr ⟨rfl, hlong⟩

/-- The children of one more slot go through adoption, or are too long together.
It is the step of `Adoption.Reached.run_cases`. -/
theorem visit_cases (h : Reached forest visited ⟨forest', p :: waiting, events⟩)
    (hroot : forest.parent? NodeId.root = none) :
    (∃ adoption, visit ⟨forest', waiting, events⟩ p = .ok adoption ∧
        Reached forest (p :: visited) adoption) ∨
      (visit ⟨forest', waiting, events⟩ p = .error .sizeOverflow ∧
        forest.Walked p ∧ UInt64.size ≤ forest.plainLength (forest.family (some p))) := by
  rcases h.visit_passed_cases with ⟨brood, hvisit, hpassed⟩ | ⟨hvisit, hlong⟩
  · exact Or.inl ⟨brood.adoption, hvisit, h.of_passed hroot hpassed⟩
  · exact Or.inr ⟨hvisit, h.walked p List.mem_append_cons_self, hlong⟩

/-- All visits that are left are made, or one finds children that are too long
together. The fuel is enough because no slot is visited twice: as many visits
are left as there are slots not visited, at most. -/
theorem run_cases (h : Reached forest visited adoption)
    (hroot : forest.parent? NodeId.root = none) (fuel : Nat)
    (hfuel : forest.size ≤ fuel + visited.length) :
    (∃ visited' adoption', run fuel adoption = .ok adoption' ∧ adoption'.waiting = [] ∧
        Reached forest visited' adoption') ∨
      (run fuel adoption = .error .sizeOverflow ∧ ¬ forest.SumsFit) := by
  induction fuel generalizing visited adoption with
  | zero =>
    obtain ⟨forest', _ | ⟨p, waiting⟩, events⟩ := adoption
    · exact Or.inl ⟨visited, _, rfl, rfl, h⟩
    · -- No slot is reached twice, so no fewer visits are left than slots wait.
      have hlength := Forest.length_le_size h.nodup h.lt_size
      rw [List.length_append, List.length_cons] at hlength
      omega
  | succ fuel ih =>
    obtain ⟨forest', _ | ⟨p, waiting⟩, events⟩ := adoption
    · exact Or.inl ⟨visited, _, rfl, rfl, h⟩
    · rw [run]
      rcases h.visit_cases hroot with ⟨adoption, hvisit, hreached⟩ | ⟨hvisit, hwalked, hlong⟩
      · rw [hvisit, except_ok_bind]
        exact ih hreached (by rw [List.length_cons]; omega)
      · rw [hvisit, except_error_bind]
        exact Or.inr ⟨rfl, Forest.not_sumsFit_iff.2 ⟨p, hwalked, hlong⟩⟩

/-- When no slot waits, all walked slots of a tree were visited. The induction
goes from the root down, since a walked slot is the root or a child of a walked
slot that does not collect. -/
theorem mem_iff (h : Reached forest visited adoption) (hwaiting : adoption.waiting = [])
    (htree : forest.IsTree) {k : NodeId} : k ∈ visited ↔ k < forest.size ∧ forest.Walked k := by
  have hvisited : visited ++ adoption.waiting = visited := by rw [hwaiting, List.append_nil]
  constructor
  · intro hk
    rw [← hvisited] at hk
    exact ⟨h.lt_size k hk, h.walked k hk⟩
  · rintro ⟨hk, hwalked⟩
    -- From the root down: a walked slot is the root or a plain child of a walked slot.
    have hvisit : forest.Walked k → k ∈ visited := by
      refine htree.induction (motive := fun k => forest.Walked k → k ∈ visited) ?_ ?_ hk
      · exact fun _ => hvisited ▸ h.root_mem
      · intro k p hp ih hk
        obtain ⟨hplain, hwalked⟩ := hk.parent htree.root_parent hp
        have hmem := h.children_mem p (ih hwalked) k hp hplain
        rwa [hvisited] at hmem
    exact hvisit hwalked

end Reached

end Adoption

namespace Forest

variable {forest : Forest}

/-- In a tree the children of every walked slot go through adoption once, or for
one of these the length of the children that do not collect leaves 64 bits. The
list is in the order of the visits, which only the events depend on. -/
theorem adoptRuns_cases (h : forest.IsTree) :
    (∃ visited : List NodeId, visited.Nodup ∧
        (∀ k, k ∈ visited ↔ k < forest.size ∧ forest.Walked k) ∧
        forest.SumsFit ∧
        forest.adoptRuns = .ok
          ⟨forest.adoptedWhere forest.walked,
            (visited.flatMap fun p => forest.absorptions p (forest.family (some p))).toArray⟩) ∨
      (forest.adoptRuns = .error .sizeOverflow ∧ ¬ forest.SumsFit) := by
  by_cases hempty : forest.size = 0
  · rw [Array.size_eq_zero_iff] at hempty
    -- In an empty array nothing is visited, and there is nothing to add up.
    subst hempty
    have hfits : plainLength #[] [] < UInt64.size := by decide
    exact Or.inl ⟨[], List.nodup_nil, by simp, fun _ _ => hfits, rfl⟩
  · have hsize : 0 < forest.size := Nat.pos_of_ne_zero hempty
    have hstart := Adoption.reached_linked hsize h.root_parent
    rw [adoptRuns, if_neg (by simpa using hempty), relink_eq h.closed, except_ok_bind]
    rcases hstart.run_cases h.root_parent (2 * forest.size)
      (by simp only [List.length_nil]; omega) with
      ⟨visited, adoption, hrun, hwaiting, hreached⟩ | ⟨hrun, hlong⟩
    · -- What was visited in the end does not depend on the order of the visits.
      have hmem := fun k => hreached.mem_iff hwaiting h (k := k)
      have hforest : adoption.forest = forest.adoptedWhere forest.walked := by
        rw [hreached.forest_eq]
        refine adoptedWhere_congr h.closed fun k hk => ?_
        rw [walked, decide_eq_decide, hmem k]
        simp [hk]
      refine Or.inl ⟨visited.reverse, ?_, fun k => ?_, SumsFit.of_lt_size h.closed ?_, ?_⟩
      · exact List.nodup_reverse.2 (List.nodup_append.1 hreached.nodup).1
      · rw [List.mem_reverse, hmem k]
      · exact fun p hp hwalked => hreached.fits p ((hmem p).2 ⟨hp, hwalked⟩)
      · rw [hrun, except_ok_bind, ← hforest, ← hreached.events_eq]
        rfl
    · rw [hrun, except_error_bind]
      exact Or.inr ⟨rfl, hlong⟩

end Forest

end ParseForest
