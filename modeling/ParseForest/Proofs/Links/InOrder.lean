import ParseForest.Proofs.Links
import ParseForest.Proofs.Validity.Grounds

/-!
# `ParseForest.Proofs.Links.InOrder`: linking from the first slot to the last

`Forest.relink` asks first whether all parents are in the array, and then goes
from the last slot to the first. The links can also be set in the order of the
array and without that question: `Forest.linkInOrder` remembers the last child
of every node and hangs each slot behind the last one with the same parent, or
under the parent if there is none. The table of last children answers for any
id; only a node that is to be changed has to be there.

`Linking.Joined` says how far this has come: the links to the slots that were
gone through are set, and no others. A slot is the link of one node at most, and
which one it is can be told from the slots before it
(`Forest.nextSibling?_eq_some_iff_lastBelow`,
`Forest.firstChild?_eq_some_iff_lastBelow`). A parent that is not in the array
has no last child, so it is looked for itself, and that is the fault.

So both ways of linking come to the same (`Forest.linkInOrder_eq_relink`), and
they give up for what the checks report (`Forest.relink_eq_error_iff`).
-/

set_option autoImplicit false

namespace ParseForest

/-- The nodes while they are linked from the first slot to the last. -/
structure Linking where
  /-- The nodes, with the links to the slots that were gone through. -/
  forest : Forest
  /-- By node: the last of its children that were gone through. -/
  lastChild : Array (Option NodeId)
  /-- The last node gone through that has no parent. -/
  lastTop : Option NodeId
deriving DecidableEq, Repr

/-- Changes a node. One that is not in the array is a fault. -/
def Forest.change (forest : Forest) (id : NodeId) (f : Node → Node) : Except Fault Forest := do
  let _ ← forest.fetch id
  return forest.modify id f

namespace Linking

/-- No node has links. -/
def unlinked (forest : Forest) : Linking where
  forest := forest.map Node.unlinked
  lastChild := Array.replicate forest.size none
  lastTop := none

/-- Goes through one more slot. -/
def join (linking : Linking) (id : NodeId) : Except Fault Linking := do
  let node ← linking.forest.fetch id
  match node.parent with
  | none =>
    let forest ← match linking.lastTop with
      | some before => linking.forest.change before fun node => { node with next := some id }
      | none => .ok linking.forest
    return { linking with forest := forest, lastTop := some id }
  | some parent =>
    -- The question for the last child may be one for a node that is not there.
    let forest ← match linking.lastChild[parent]?.join with
      | some before => linking.forest.change before fun node => { node with next := some id }
      | none => linking.forest.change parent fun node => { node with child := some id }
    return { linking with
      forest := forest
      lastChild := linking.lastChild.setIfInBounds parent (some id) }

end Linking

namespace Forest

variable {forest : Forest} {fault : Fault} {parent : Option NodeId} {c id k p : NodeId} {n : Nat}

/-- Sets all links in the order of the array. -/
def linkInOrder (forest : Forest) : Except Fault Forest := do
  let linking ← (List.range forest.size).foldlM Linking.join (Linking.unlinked forest)
  return linking.forest

/-- The last of the slots below some slot with a given parent, or without one
for `none`. -/
def lastBelow (forest : Forest) (parent : Option NodeId) : (count : Nat) → Option NodeId
  | 0 => none
  | k + 1 => if forest.parent? k = parent then some k else lastBelow forest parent k

/-- The forest with the links to the slots below some slot. -/
def linkedBelow (forest : Forest) (count : Nat) : Forest :=
  forest.mapIdx fun k node =>
    { node with
      child := (forest.firstChild? k).filter (· < count)
      next := (forest.nextSibling? k).filter (· < count) }

/-! ### Which node links to a slot -/

/-- The last slot below `n` with a given parent has that parent, and no slot
between it and `n` has. -/
theorem lastBelow_eq_some_iff :
    forest.lastBelow parent n = some k ↔
      k < n ∧ forest.parent? k = parent ∧ ∀ j, k < j → j < n → forest.parent? j ≠ parent := by
  induction n with
  | zero => simp [lastBelow]
  | succ n ih =>
    rw [lastBelow]
    split
    · rename_i hn
      constructor
      · rintro ⟨⟩
        exact ⟨Nat.lt_succ_self k, hn, fun j hkj hj => absurd hj (Nat.not_lt_of_le hkj)⟩
      · -- Slot `n` has that parent, so no slot before it can be the last.
        rintro ⟨hk, -, hnone⟩
        rcases Nat.lt_succ_iff_lt_or_eq.1 hk with hlt | rfl
        · exact absurd hn (hnone n hlt (Nat.lt_succ_self n))
        · rfl
    · rename_i hn
      -- Slot `n` has another parent, and may be added to those in between.
      rw [ih]
      constructor
      · rintro ⟨hk, hp, hnone⟩
        refine ⟨Nat.lt_succ_of_lt hk, hp, fun j hkj hj => ?_⟩
        rcases Nat.lt_succ_iff_lt_or_eq.1 hj with hlt | rfl
        · exact hnone j hkj hlt
        · exact hn
      · rintro ⟨hk, hp, hnone⟩
        refine ⟨Nat.lt_of_le_of_ne (Nat.le_of_lt_succ hk) ?_, hp, fun j hkj hj =>
          hnone j hkj (Nat.lt_succ_of_lt hj)⟩
        rintro rfl
        exact hn hp

/-- There is no last slot with a given parent if no slot below `n` has that
parent. -/
theorem lastBelow_eq_none_iff :
    forest.lastBelow parent n = none ↔ ∀ j < n, forest.parent? j ≠ parent := by
  induction n with
  | zero => simp [lastBelow]
  | succ n ih =>
    rw [lastBelow, Nat.forall_lt_succ_right]
    split
    · rename_i hn
      simp [hn]
    · rename_i hn
      rw [ih]
      exact (and_iff_left hn).symm

/-- A slot comes next after the last one before it with the same parent. On the
right nothing is said of slots behind it, so the link can be set as soon as the
slot is gone through. -/
theorem nextSibling?_eq_some_iff_lastBelow (hid : id < forest.size) :
    forest.nextSibling? k = some id ↔ forest.lastBelow (forest.parent? id) id = some k := by
  rw [lastBelow_eq_some_iff, nextSibling?, family, List.find?_filter, List.find?_range_eq_some]
  simp only [decide_eq_true_eq, List.mem_range, hid, true_and, Bool.not_eq_true',
    decide_eq_false_iff_not, not_and]
  constructor
  · rintro ⟨⟨hp, hlt⟩, hnone⟩
    exact ⟨hlt, hp.symm, fun j hkj hj hpj => hnone j hj (hpj.trans hp) hkj⟩
  · rintro ⟨hlt, hp, hnone⟩
    exact ⟨⟨hp.symm, hlt⟩, fun j hj hpj hkj => hnone j hkj hj (hpj.trans hp)⟩

/-- A slot comes first under its parent if no slot before it has the same. This
too is settled when the slot is gone through. -/
theorem firstChild?_eq_some_iff_lastBelow (hid : id < forest.size) :
    forest.firstChild? p = some id ↔
      forest.parent? id = some p ∧ forest.lastBelow (some p) id = none := by
  rw [lastBelow_eq_none_iff, firstChild?, family, List.head?_filter, List.find?_range_eq_some]
  simp [hid]

/-! ### The forest with some of the links -/

/-- A link to a slot that was gone through is set, and one to a later slot is
not. -/
theorem getElem?_linkedBelow (forest : Forest) (n : Nat) (k : NodeId) :
    (forest.linkedBelow n)[k]? = forest[k]?.map fun node =>
      { node with
        child := (forest.firstChild? k).filter (· < n)
        next := (forest.nextSibling? k).filter (· < n) } := by
  rw [linkedBelow, Array.getElem?_mapIdx]

/-- Setting some of the links takes out no slot and adds none. -/
theorem size_linkedBelow (forest : Forest) (n : Nat) : (forest.linkedBelow n).size = forest.size :=
  Array.size_mapIdx

/-- Before any slot was gone through there are no links. -/
theorem linkedBelow_zero (forest : Forest) : forest.linkedBelow 0 = forest.map Node.unlinked := by
  refine Array.ext_getElem? fun k => ?_
  rw [getElem?_linkedBelow, Array.getElem?_map]
  congr 1
  funext node
  cases forest.firstChild? k <;> cases forest.nextSibling? k <;> simp [Node.unlinked]

/-- A first child is a slot of the array. -/
theorem lt_size_of_firstChild? (h : forest.firstChild? k = some c) : c < forest.size :=
  (mem_family.1 (List.mem_of_head? h)).1

/-- A next sibling is a slot of the array. -/
theorem lt_size_of_nextSibling? (h : forest.nextSibling? k = some c) : c < forest.size :=
  (mem_family.1 (List.mem_of_find?_eq_some h)).1

/-- A link that leads below `n` anyway is not affected by leaving out those that
do not. -/
theorem filter_lt_eq_self {link : Option NodeId} (h : ∀ c, link = some c → c < n) :
    link.filter (· < n) = link := by
  cases link with
  | none => rfl
  | some c => simp [Option.filter, h c rfl]

/-- With one more slot gone through, a link to that very slot comes in, and the
others are as before. -/
theorem filter_lt_succ (link : Option NodeId) (n : Nat) :
    link.filter (· < n + 1) = if link = some n then some n else link.filter (· < n) := by
  cases link with
  | none => rfl
  | some c =>
    by_cases hc : c = n
    · simp [hc]
    · have hlt : c < n + 1 ↔ c < n :=
        ⟨fun h => Nat.lt_of_le_of_ne (Nat.le_of_lt_succ h) hc, Nat.lt_succ_of_lt⟩
      simp [hc, hlt, Option.filter]

/-- When all slots were gone through, all links are set, because none leads out
of the array. -/
theorem linkedBelow_size (forest : Forest) :
    forest.linkedBelow forest.size = forest.familyLinked := by
  refine Array.ext_getElem? fun k => ?_
  rw [getElem?_linkedBelow, getElem?_familyLinked,
    filter_lt_eq_self fun _ => lt_size_of_firstChild?,
    filter_lt_eq_self fun _ => lt_size_of_nextSibling?]

/-- What a slot adds to the links: it is the next sibling of the last slot
before it with the same parent, or, if there is none, the first child of its
parent. -/
theorem getElem?_linkedBelow_succ (hid : id < forest.size) (k : NodeId) :
    (forest.linkedBelow (id + 1))[k]? = (forest.linkedBelow id)[k]?.map fun node =>
      { node with
        child :=
          if forest.parent? id = some k ∧ forest.lastBelow (some k) id = none then some id
          else node.child
        next :=
          if forest.lastBelow (forest.parent? id) id = some k then some id else node.next } := by
  rw [getElem?_linkedBelow, getElem?_linkedBelow, Option.map_map]
  simp only [filter_lt_succ, firstChild?_eq_some_iff_lastBelow hid,
    nextSibling?_eq_some_iff_lastBelow hid]
  rfl

/-- Behind a slot with the same parent, only the next sibling of that one is
new. So one write is enough for a slot that has an elder sibling. -/
theorem linkedBelow_succ_of_before (hid : id < forest.size)
    (hbefore : forest.lastBelow (forest.parent? id) id = some k) :
    forest.linkedBelow (id + 1) =
      (forest.linkedBelow id).modify k fun node => { node with next := some id } := by
  refine Array.ext_getElem? fun j => ?_
  -- A slot that has one before it is the first child of no node.
  have hnot : ¬ (forest.parent? id = some j ∧ forest.lastBelow (some j) id = none) := by
    rintro ⟨hp, hnone⟩
    rw [hp, hnone] at hbefore
    cases hbefore
  rw [getElem?_linkedBelow_succ hid, Array.getElem?_modify, hbefore]
  simp only [if_neg hnot, Option.some.injEq]
  by_cases hkj : k = j
  · simp [hkj]
  · simp [hkj]

/-- The first slot with its parent becomes the first child, if there is a
parent, and nothing else is new. -/
theorem linkedBelow_succ_of_first (hid : id < forest.size) (hp : forest.parent? id = some p)
    (hfirst : forest.lastBelow (some p) id = none) :
    forest.linkedBelow (id + 1) =
      (forest.linkedBelow id).modify p fun node => { node with child := some id } := by
  refine Array.ext_getElem? fun j => ?_
  rw [getElem?_linkedBelow_succ hid, Array.getElem?_modify, hp, hfirst]
  by_cases hpj : p = j
  · subst hpj
    simp [hfirst]
  · simp [hpj]

/-- The first slot without a parent is not linked to at all: it is where walks
along the top level start. -/
theorem linkedBelow_succ_of_top (hid : id < forest.size) (hp : forest.parent? id = none)
    (hfirst : forest.lastBelow none id = none) :
    forest.linkedBelow (id + 1) = forest.linkedBelow id := by
  refine Array.ext_getElem? fun j => ?_
  rw [getElem?_linkedBelow_succ hid, hp, hfirst]
  simp

/-- A node of the array can be changed. What has to be there is the node, not
what it is linked to. -/
theorem change_eq_ok (f : Node → Node) (hid : id < forest.size) :
    forest.change id f = .ok (forest.modify id f) := by
  rw [change, fetch_eq_ok (Array.getElem?_eq_getElem hid)]
  rfl

end Forest

namespace Linking

variable {forest : Forest} {linking : Linking} {id k p : NodeId}

/-- The slots below `count` were gone through. -/
structure Joined (forest : Forest) (count : Nat) (linking : Linking) : Prop where
  inside : ∀ k < count, ∀ p, forest.parent? k = some p → p < forest.size
  forest_eq : linking.forest = forest.linkedBelow count
  lastChild_eq : ∀ p : NodeId, linking.lastChild[p]? =
    if p < forest.size then some (forest.lastBelow (some p) count) else none
  lastTop_eq : linking.lastTop = forest.lastBelow none count

/-- Before the first slot no links are set, and no slot is the last of
anything. -/
theorem joined_unlinked (forest : Forest) : Joined forest 0 (unlinked forest) where
  inside := fun k hk => absurd hk (Nat.not_lt_zero k)
  forest_eq := forest.linkedBelow_zero.symm
  lastChild_eq := fun _ => Array.getElem?_replicate
  lastTop_eq := rfl

namespace Joined

/-- The next slot is found with the parent that it had, since only links were
set so far. -/
theorem fetch_eq (h : Joined forest id linking) (hid : id < forest.size) :
    ∃ node, linking.forest.fetch id = .ok node ∧ node.parent = forest.parent? id := by
  have hnode : linking.forest[id]? = some { forest[id] with
      child := (forest.firstChild? id).filter (· < id)
      next := (forest.nextSibling? id).filter (· < id) } := by
    rw [h.forest_eq, Forest.getElem?_linkedBelow, Array.getElem?_eq_getElem hid]
    rfl
  exact ⟨_, Forest.fetch_eq_ok hnode, (Forest.parent?_eq (Array.getElem?_eq_getElem hid)).symm⟩

/-- The last slot before the next one with the same parent can be changed, and
this sets the links to the next slot. -/
theorem change_before (h : Joined forest id linking) (hid : id < forest.size)
    (hbefore : forest.lastBelow (forest.parent? id) id = some k) :
    linking.forest.change k (fun node => { node with next := some id }) =
      .ok (forest.linkedBelow (id + 1)) := by
  have hk : k < (forest.linkedBelow id).size := by
    rw [Forest.size_linkedBelow]
    exact Nat.lt_trans (Forest.lastBelow_eq_some_iff.1 hbefore).1 hid
  rw [h.forest_eq, Forest.change_eq_ok _ hk, Forest.linkedBelow_succ_of_before hid hbefore]

/-- One more slot without a parent: it is linked to by the last such slot before
it, if there is one, and is the last one now. -/
theorem join_top (h : Joined forest id linking) (hid : id < forest.size)
    (hp : forest.parent? id = none) :
    linking.join id = .ok
      { linking with forest := forest.linkedBelow (id + 1), lastTop := some id } := by
  obtain ⟨node, hfetch, hparent⟩ := h.fetch_eq hid
  rw [hp] at hparent
  rw [join, hfetch, except_ok_bind]
  simp only [hparent, h.lastTop_eq]
  cases hbefore : forest.lastBelow none id with
  | none =>
    rw [Forest.linkedBelow_succ_of_top hid hp hbefore, ← h.forest_eq]
    rfl
  | some k =>
    have hchange := h.change_before hid (hp.symm ▸ hbefore)
    simp only [hchange]
    rfl

/-- One more slot with a parent in the array: it is linked to by the last slot
before it with the same parent or else by the parent, and is the last child
now. -/
theorem join_under (h : Joined forest id linking) (hid : id < forest.size)
    (hp : forest.parent? id = some p) (hlt : p < forest.size) :
    linking.join id = .ok
      { linking with
        forest := forest.linkedBelow (id + 1)
        lastChild := linking.lastChild.setIfInBounds p (some id) } := by
  obtain ⟨node, hfetch, hparent⟩ := h.fetch_eq hid
  rw [hp] at hparent
  rw [join, hfetch, except_ok_bind]
  simp only [hparent, h.lastChild_eq, if_pos hlt, Option.join_some]
  -- The slot comes first under its parent, or behind the last one with the same parent.
  cases hbefore : forest.lastBelow (some p) id with
  | none =>
    have hchange : linking.forest.change p (fun node => { node with child := some id }) =
        .ok (forest.linkedBelow (id + 1)) := by
      rw [h.forest_eq, Forest.change_eq_ok _ (by rwa [Forest.size_linkedBelow]),
        Forest.linkedBelow_succ_of_first hid hp hbefore]
    simp only [hchange]
    rfl
  | some k =>
    have hchange := h.change_before hid (hp.symm ▸ hbefore)
    simp only [hchange]
    rfl

/-- A parent that is not in the array is looked for, because no child of it was
seen: the table of last children has no room for it, so the question for the
last child finds none. -/
theorem join_eq_error (h : Joined forest id linking) (hid : id < forest.size)
    (hp : forest.parent? id = some p) (hle : forest.size ≤ p) :
    linking.join id = .error (.indexOutOfBounds forest.size p) := by
  obtain ⟨node, hfetch, hparent⟩ := h.fetch_eq hid
  rw [hp] at hparent
  have hmissing : (forest.linkedBelow id)[p]? = none :=
    Array.getElem?_eq_none (by rwa [Forest.size_linkedBelow])
  have hchange : linking.forest.change p (fun node => { node with child := some id }) =
      .error (.indexOutOfBounds forest.size p) := by
    rw [h.forest_eq, Forest.change, Forest.fetch, hmissing, Forest.size_linkedBelow]
    rfl
  rw [join, hfetch, except_ok_bind]
  simp only [hparent, h.lastChild_eq, if_neg (Nat.not_lt_of_le hle), Option.join_none, hchange]
  rfl

/-- One more slot is gone through, or its parent is not in the array. In the
second case the fault names the parent, and nothing is said of later slots. -/
theorem join_cases (h : Joined forest id linking) (hid : id < forest.size) :
    (∃ linking', linking.join id = .ok linking' ∧ Joined forest (id + 1) linking') ∨
      ∃ p, forest.parent? id = some p ∧ forest.size ≤ p ∧
        linking.join id = .error (.indexOutOfBounds forest.size p) := by
  cases hp : forest.parent? id with
  | none =>
    -- The slot is the last one at the top level from now on, and nothing has changed
    -- under parents.
    refine Or.inl ⟨_, h.join_top hid hp, ?_, rfl, fun p => ?_, ?_⟩
    · refine Nat.forall_lt_succ_right.2 ⟨h.inside, fun p hparent => ?_⟩
      rw [hp] at hparent
      cases hparent
    · have hsame : forest.lastBelow (some p) (id + 1) = forest.lastBelow (some p) id := by
        rw [Forest.lastBelow, hp, if_neg (by simp)]
      rw [h.lastChild_eq, hsame]
    · rw [Forest.lastBelow, if_pos hp]
  | some p =>
    rcases Nat.lt_or_ge p forest.size with hlt | hle
    · -- The slot is the last one under `p` from now on, and for other parents nothing has
      -- changed.
      refine Or.inl ⟨_, h.join_under hid hp hlt, ?_, rfl, fun q => ?_, ?_⟩
      · refine Nat.forall_lt_succ_right.2 ⟨h.inside, fun q hparent => ?_⟩
        rw [hp] at hparent
        cases hparent
        exact hlt
      · have hsize : p < linking.lastChild.size := by
          have hfound := h.lastChild_eq p
          rw [if_pos hlt] at hfound
          exact (Array.getElem?_eq_some_iff.1 hfound).1
        have hlast : forest.lastBelow (some q) (id + 1) =
            if p = q then some id else forest.lastBelow (some q) id := by
          rw [Forest.lastBelow, hp]
          simp only [Option.some.injEq]
        rw [Array.getElem?_setIfInBounds, h.lastChild_eq, hlast]
        by_cases hpq : p = q
        · subst hpq
          simp [hlt, hsize]
        · simp [hpq]
      · rw [h.lastTop_eq, Forest.lastBelow, hp, if_neg (by simp)]
    · exact Or.inr ⟨p, rfl, hle, h.join_eq_error hid hp hle⟩

end Joined

end Linking

namespace Forest

variable {forest : Forest} {fault : Fault} {k p : NodeId}

/-! ### When linking gives up -/

/-- Linking names the parent of the lowest slot that has one outside the
array. -/
theorem exists_of_parentOutside? (h : forest.parentOutside? = some p) :
    ∃ k, IsLeast forest.outsiders k ∧ forest.parent? k = some p := by
  rw [parentOutside?, Array.findSome?_eq_some_iff] at h
  obtain ⟨before, node, after, hsplit, hnode, hbefore⟩ := h
  rw [Option.filter_eq_some_iff, decide_eq_true_iff] at hnode
  obtain ⟨hp, hle⟩ := hnode
  have hfound : forest[before.size]? = some node := by
    rw [hsplit, Array.getElem?_append_left (by simp), Array.getElem?_push_size]
  have hparent : forest.parent? before.size = some p := (parent?_eq hfound).trans hp
  refine ⟨before.size, isLeast_of_before ⟨p, hparent, hle⟩ ?_, hparent⟩
  rintro j hj ⟨q, hq, hout⟩
  have hnone := hbefore before[j] (Array.getElem_mem hj)
  have hfound : forest[j]? = some before[j] := by
    have hpush : j < (before.push node).size := by
      rw [Array.size_push]
      exact Nat.lt_succ_of_lt hj
    rw [hsplit, Array.getElem?_append_left hpush, Array.getElem?_push_lt hj]
  rw [parent?_eq hfound] at hq
  simp [hq, Nat.not_lt_of_le hout] at hnone

/-- The parent that linking names is that of the lowest slot with one outside
the array, and there is no other case in which it names one. -/
theorem parentOutside?_eq_some_iff :
    forest.parentOutside? = some p ↔
      ∃ k, IsLeast forest.outsiders k ∧ forest.parent? k = some p := by
  refine ⟨exists_of_parentOutside?, ?_⟩
  rintro ⟨k, hk, hp⟩
  cases hfound : forest.parentOutside? with
  | none =>
    obtain ⟨q, hq, hle⟩ := hk.1
    exact absurd (parentOutside?_eq_none_iff.1 hfound k q hq) (Nat.not_lt_of_le hle)
  | some q =>
    obtain ⟨j, hj, hq⟩ := exists_of_parentOutside? hfound
    rw [← hp, hk.unique hj, hq]

/-- Linking gives up for what the checks would have rejected the array for, if
that is a parent outside the array. -/
theorem relink_eq_error_iff :
    forest.relink = .error fault ↔
      ∃ k p, forest.inspect.answer = .error (.parentOutside k p) ∧
        fault = .indexOutOfBounds forest.size p := by
  simp only [inspect_answer]
  constructor
  · intro h
    rw [relink] at h
    cases hfound : forest.parentOutside? with
    | none => simp [hfound] at h
    | some p =>
      simp only [hfound, Except.error.injEq] at h
      obtain ⟨k, hk, hp⟩ := parentOutside?_eq_some_iff.1 hfound
      exact ⟨k, p, check_of_isLeast_outsiders hk hp, h.symm⟩
  · rintro ⟨k, p, hrejected, rfl⟩
    cases rejectedFor_of_check hrejected with
    | parentOutside hk hp => rw [relink, parentOutside?_eq_some_iff.2 ⟨k, hk, hp⟩]

/-- Linking in the order of the array comes to the same as `Forest.relink` for
every array, and gives up for the same parent, though it finds out about it only
in the middle. -/
theorem linkInOrder_eq_relink (forest : Forest) : forest.linkInOrder = forest.relink := by
  have hstep : ∀ id linking, id < forest.size → Linking.Joined forest id linking →
      (∃ linking', linking.join id = .ok linking' ∧ Linking.Joined forest (id + 1) linking') ∨
        ∃ fault, linking.join id = .error fault ∧ forest.relink = .error fault := by
    intro id linking hid hjoined
    rcases hjoined.join_cases hid with hok | ⟨p, hp, hle, herror⟩
    · exact Or.inl hok
    · have hleast : IsLeast forest.outsiders id := by
        refine isLeast_of_before ⟨p, hp, hle⟩ ?_
        rintro j hj ⟨q, hq, hout⟩
        exact Nat.not_lt_of_le hout (hjoined.inside j hj q hq)
      refine Or.inr ⟨_, herror, ?_⟩
      rw [relink, parentOutside?_eq_some_iff.2 ⟨id, hleast, hp⟩]
  rw [linkInOrder]
  -- What goes wrong first in the loop is what the question asked before would have found.
  rcases foldlM_range_cases Linking.join (Linking.unlinked forest) forest.size _ _
    (Linking.joined_unlinked forest) hstep with ⟨linking, hok, hjoined⟩ | ⟨fault, herror, hrelink⟩
  · have hclosed : forest.Closed := fun k p hp => hjoined.inside k (lt_size_of_parent hp) p hp
    rw [hok, except_ok_bind, relink_eq hclosed, hjoined.forest_eq, linkedBelow_size]
    rfl
  · rw [herror, except_error_bind, hrelink]

end Forest

end ParseForest
