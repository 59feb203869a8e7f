import ParseForest.Proofs.Adoption
import ParseForest.Proofs.Links.InOrder

/-!
# `ParseForest.Proofs.Adoption.InPlace`: adoption along the links

`Adoption.visit` lists the children of a node before it meets the first, and
`Brood` keeps the run of siblings that the next collecting one takes in. Neither
list is needed, because the links hold both. `Adoption.visitInPlace` goes from
child to child along `next`. At a collecting child, `Forest.absorb` asks the
parent for its first child, goes from there along `next` until it comes to the
collecting child, and hangs and counts what it meets. In the end the collecting
child becomes the first child of the parent, so the next one starts from it.

That the two agree rests on two facts. Adoption changes no `next`, so what is
ahead stays ahead. And the first child of the parent is always the first node of
the run, or the child that comes now if the run is empty: the nodes from it on
along `next` are the run and, behind it, the children still to be met
(`Brood.Led`). Each child that is met keeps both (`Brood.Led.adopt`,
`Brood.Led.pass`).

`Forest.adoptRunsInPlace_eq` holds of every array, also where parents lead
around in a circle: what has to be true of the links is that the children of
each node come to an end (`Forest.Followable`), and `Forest.relink` makes it so.
-/

set_option autoImplicit false

namespace ParseForest

/-! ### The pass -/

namespace Forest

/-- Hangs the nodes from `ahead` on under `collector`, each the next sibling of
the one before, up to `collector` or the end of the row. Answers with how many
there were, `count` of them before. More than `fuel` are a fault, as in
`Forest.fetchRow`. -/
def hangUpTo (collector : NodeId) (fuel : Nat) (ahead : Option NodeId) (forest : Forest)
    (count : Nat) : Except Fault (Forest × Nat) :=
  match ahead.filter (· ≠ collector) with
  | none => .ok (forest, count)
  | some id =>
    match fuel with
    | 0 => .error .endless
    | fuel + 1 => do
      let node ← forest.fetch id
      hangUpTo collector fuel node.next
        (forest.setIfInBounds id { node with parent := some collector }) (count + 1)

/-- Makes a collecting node the parent of the siblings before it, from the first
child of `parent` on, and the first child itself. Answers with how many siblings
these were. -/
def absorb (forest : Forest) (parent collector : NodeId) (length : ByteCount) :
    Except Fault (Forest × Nat) := do
  let node ← forest.fetch parent
  let start := node.child.getD collector
  let first ← forest.fetch start
  let covering ← forest.change collector fun node =>
    { node with offset := first.offset, length := length }
  let (hung, count) ← covering.hangUpTo collector forest.size (some start) 0
  let led ← hung.change parent fun node => { node with child := some collector }
  return (led, count)

end Forest

namespace Adoption

/-- The children of `parent` from `ahead` on go through adoption, in order. The
children before them that do not collect are `length` long. -/
def visitFrom (parent : NodeId) :
    (fuel : Nat) → (ahead : Option NodeId) → Adoption → (length : ByteCount) → Except Fault Adoption
  | _, none, adoption, _ => .ok adoption
  | 0, some _, _, _ => .error .endless
  | fuel + 1, some id, adoption, length => do
    let node ← adoption.forest.fetch id
    if node.collects then
      let (forest, count) ← adoption.forest.absorb parent id length
      visitFrom parent fuel node.next
        { forest := forest
          waiting := adoption.waiting
          events := adoption.events.push (.absorbed id count parent) }
        length
    else
      match length.add? node.length with
      | none => .error .sizeOverflow
      | some length =>
        visitFrom parent fuel node.next { adoption with waiting := id :: adoption.waiting } length

/-- The children of a node go through adoption, along the links. -/
def visitInPlace (adoption : Adoption) (parent : NodeId) : Except Fault Adoption := do
  let node ← adoption.forest.fetch parent
  adoption.visitFrom parent adoption.forest.size node.child 0

/-- Visits the nodes that wait, in at most `fuel` visits. -/
def runInPlace : (fuel : Nat) → Adoption → Except Fault Adoption
  | _, ⟨forest, [], events⟩ => .ok ⟨forest, [], events⟩
  | 0, ⟨_, _ :: _, _⟩ => .error .endless
  | fuel + 1, ⟨forest, id :: waiting, events⟩ => do
    runInPlace fuel (← visitInPlace ⟨forest, waiting, events⟩ id)

end Adoption

/-- Adoption with nothing beside the array but the slots that wait: fresh links,
set in the order of the array, and then one visit after another. -/
def Forest.adoptRunsInPlace (forest : Forest) : Except Fault (Told Forest) := do
  if forest.isEmpty then
    return ⟨forest, #[]⟩
  let linked ← forest.linkInOrder
  let adoption ← Adoption.runInPlace (2 * forest.size) ⟨linked, [NodeId.root], #[]⟩
  return ⟨adoption.forest, adoption.events⟩

namespace Forest

variable {forest forest' : Forest} {ahead : Option NodeId} {ids ids' before after : List NodeId}
  {node : Node} {c k p : NodeId}

/-- Along `next` from any first child, the row of children comes to an end. -/
def Followable (forest : Forest) : Prop :=
  ∀ (k : NodeId) (node : Node), forest[k]? = some node → ∃ ids, forest.Row node.child ids

/-- The links that parents imply can be followed, whether parents lead around in
circles or not. A family is a row, and a row ends. -/
theorem followable_familyLinked (forest : Forest) : forest.familyLinked.Followable := by
  intro k node hnode
  rw [getElem?_familyLinked, Option.map_eq_some_iff] at hnode
  obtain ⟨_, _, rfl⟩ := hnode
  exact ⟨_, forest.row_family (some k)⟩

/-! ### One collecting child -/

/-- What stands in a row before a node is hung under it and counted. The row
goes on behind the changes, because they leave `next` alone; the induction is on
what stands before the node. -/
theorem Row.hangUpTo_eq (h : forest.Row ahead (ids ++ c :: after)) {fuel : Nat}
    (hfuel : ids.length ≤ fuel) (count : Nat) :
    forest.hangUpTo c fuel ahead count = .ok (forest.hung ids c, count + ids.length) := by
  induction ids generalizing forest ahead fuel count with
  | nil =>
    have hstop : ahead.filter (· ≠ c) = none := by
      rw [h.ahead_eq]
      simp
    unfold hangUpTo
    rw [hstop, hung_nil]
    rfl
  | cons id ids ih =>
    -- The node to stop at comes later in the row, and nothing comes twice in one.
    have hne : id ≠ c := by
      rintro rfl
      have hnodup := h.nodup
      simp at hnodup
    cases fuel with
    | zero => exact absurd hfuel (Nat.not_succ_le_zero _)
    | succ fuel =>
      cases h with
      | @cons _ node _ hnode hrest =>
        -- The write changes a parent, so the row goes on as before.
        have hrow : Forest.Row (forest.setIfInBounds id { node with parent := some c }) node.next
            (ids ++ c :: after) := by
          refine hrest.congr fun k => ?_
          rw [Array.getElem?_setIfInBounds]
          by_cases hk : id = k
          · subst hk
            rw [if_pos rfl, if_pos (Array.getElem?_eq_some_iff.1 hnode).1, hnode]
            rfl
          · rw [if_neg hk]
        have hrun := ih hrow (Nat.le_of_succ_le_succ hfuel) (count + 1)
        rw [hung_setIfInBounds hnode, Nat.add_right_comm] at hrun
        have hgo : (some id).filter (· ≠ c) = some id := by simp [hne]
        unfold hangUpTo
        rw [hgo]
        show (forest.fetch id >>= fun node => _) = _
        rw [fetch_eq_ok hnode, except_ok_bind, hrun]
        rfl

/-- What a collecting node does to its siblings, found along the links: the same
three writes as in `Brood.adopt`, with the number of siblings counted on the
way. That the first of them can be fetched is asked for, because the collecting
node takes its offset from there. -/
theorem Row.absorb_eq {parent first : Node} (h : forest.Row parent.child (ids ++ c :: after))
    (hparent : forest[p]? = some parent)
    (hfirst : forest.fetch (ids.head?.getD c) = .ok first) (length : ByteCount) :
    forest.absorb p c length =
      .ok (((forest.cover c first.offset length).hung ids c).leadWith p c, ids.length) := by
  have hc : c < forest.size := h.lt_size (by simp)
  have hp : p < forest.size := (Array.getElem?_eq_some_iff.1 hparent).1
  -- The first child is the first of the siblings before, or the collecting node itself.
  have hstart : parent.child = some (ids.head?.getD c) := by
    rw [h.ahead_eq]
    cases ids <;> rfl
  have hnext : ∀ k : NodeId, (forest.cover c first.offset length)[k]?.map Node.next =
      forest[k]?.map Node.next := by
    intro k
    rw [getElem?_cover, Option.map_map]
    rfl
  have hfuel : ids.length ≤ forest.size :=
    Nat.le_trans (by simp) h.length_le
  have hhung := (h.congr hnext).hangUpTo_eq hfuel 0
  rw [hstart, Nat.zero_add] at hhung
  have hcover : forest.change c (fun node =>
      { node with offset := first.offset, length := length }) =
      .ok (forest.cover c first.offset length) := change_eq_ok _ hc
  have hlead : ((forest.cover c first.offset length).hung ids c).change p (fun node =>
      { node with child := some c }) =
      .ok (((forest.cover c first.offset length).hung ids c).leadWith p c) := by
    refine change_eq_ok _ ?_
    rw [hung, Array.size_mapIdx, size_cover]
    exact hp
  rw [absorb, fetch_eq_ok hparent, except_ok_bind, hstart, Option.getD_some]
  simp only [hfirst, except_ok_bind, hcover, hhung, hlead]
  rfl

/-- The changes leave `next` alone, and the only first child that changes is
followed by what was behind it before. So every first child still starts a row,
and that of `p` starts with the collecting node. -/
theorem Row.followable_absorbed {run : Array NodeId} {offset length : ByteCount}
    (h : forest.Row ahead (run.toList ++ c :: after)) (hfollowable : forest.Followable) :
    (((forest.cover c offset length).hung run.toList c).leadWith p c).Followable ∧
      (((forest.cover c offset length).hung run.toList c).leadWith p c).Row (some c)
        (c :: after) := by
  have hnext : ∀ k : NodeId,
      (((forest.cover c offset length).hung run.toList c).leadWith p c)[k]?.map Node.next =
        forest[k]?.map Node.next := by
    intro k
    rw [getElem?_adopt, Option.map_map]
    rfl
  have hrow := h.suffix.congr hnext
  refine ⟨fun k node hnode => ?_, hrow⟩
  rw [getElem?_adopt, Option.map_eq_some_iff] at hnode
  obtain ⟨node, hnode, rfl⟩ := hnode
  -- Only the first child of `p` is another one.
  by_cases hk : k = p
  · refine ⟨c :: after, ?_⟩
    simp only [if_pos hk]
    exact hrow
  · obtain ⟨ids, hids⟩ := hfollowable k node hnode
    refine ⟨ids, ?_⟩
    simp only [if_neg hk]
    exact hids.congr hnext

end Forest

namespace Brood

variable {brood brood' : Brood} {rest : List NodeId} {node : Node} {c p : NodeId}

/-- Along `next` from the first child of `p` come the run and then the children
still to be met. -/
structure Led (p : NodeId) (rest : List NodeId) (brood : Brood) : Prop where
  row : brood.adoption.forest.Row (brood.run.toList ++ rest).head? (brood.run.toList ++ rest)
  child : brood.adoption.forest[p]?.map Node.child = some (brood.run.toList ++ rest).head?
  followable : brood.adoption.forest.Followable

namespace Led

/-- The child that comes now is in the array, and the next one is behind it.
Both passes therefore look at the same node, one in its list and the other along
the link. -/
theorem exists_fetch_eq (h : Led p (c :: rest) brood) :
    ∃ node, brood.adoption.forest.fetch c = .ok node ∧ node.next = rest.head? := by
  have hrow := h.row.suffix
  cases hrow with
  | cons hnode hrest => exact ⟨_, Forest.fetch_eq_ok hnode, hrest.ahead_eq⟩

/-- A child that does not collect joins the run where it is. No link is written,
so the row of the run and of the children still to be met is what it was. -/
theorem pass (h : Led p (c :: rest) brood) (hpass : brood.pass c node = .ok brood') :
    Led p rest brood' := by
  rw [Brood.pass] at hpass
  cases hadd : brood.length.add? node.length with
  | none => simp [hadd] at hpass
  | some length =>
    simp only [hadd, Except.ok.injEq] at hpass
    subst hpass
    have hjoin : (brood.run.push c).toList ++ rest = brood.run.toList ++ c :: rest := by simp
    constructor
    case row =>
      show brood.adoption.forest.Row _ ((brood.run.push c).toList ++ rest)
      rw [hjoin]
      exact h.row
    case child =>
      show brood.adoption.forest[p]?.map Node.child = some ((brood.run.push c).toList ++ rest).head?
      rw [hjoin]
      exact h.child
    case followable => exact h.followable

/-- A collecting child takes in the same nodes either way, and as many of them.
From then on it is the first child, and all of the run. -/
theorem adopt (h : Led p (c :: rest) brood) :
    ∃ forest, brood.adoption.forest.absorb p c brood.length = .ok (forest, brood.run.size) ∧
      ∃ brood', brood.adopt p c = .ok brood' ∧
        brood'.adoption =
          { forest := forest
            waiting := brood.adoption.waiting
            events := brood.adoption.events.push (.absorbed c brood.run.size p) } ∧
        brood'.length = brood.length ∧ Led p rest brood' := by
  obtain ⟨parent, hparent, hchild⟩ := Option.map_eq_some_iff.1 h.child
  have hrow : brood.adoption.forest.Row parent.child (brood.run.toList ++ c :: rest) :=
    hchild ▸ h.row
  -- The first of the run is the first child; without a run, that is the child that comes now.
  have hfront : brood.run[0]? = brood.run.toList.head? := by
    rw [List.head?_eq_getElem?, Array.getElem?_toList]
  obtain ⟨first, hfirst⟩ :
      ∃ first, brood.adoption.forest.fetch (brood.run.toList.head?.getD c) = .ok first := by
    have hmem : brood.run.toList.head?.getD c ∈ brood.run.toList ++ c :: rest := by
      cases brood.run.toList <;> simp
    exact ⟨_, Forest.fetch_eq_ok (Array.getElem?_eq_getElem (hrow.lt_size hmem))⟩
  have habsorb := hrow.absorb_eq hparent hfirst brood.length
  rw [Array.length_toList] at habsorb
  refine ⟨_, habsorb, ⟨⟨_, _, _⟩, #[c], brood.length⟩, ?_, rfl, rfl, ?_⟩
  · have hids : ∀ id ∈ brood.run.toList,
        id < (brood.adoption.forest.cover c first.offset brood.length).size := by
      intro id hid
      rw [Forest.size_cover]
      exact hrow.lt_size (List.mem_append_left _ hid)
    rw [Brood.adopt, hfront, hfirst, except_ok_bind]
    simp only [Forest.hang_eq hids, except_ok_bind]
    rfl
  · obtain ⟨hfollowable, hled⟩ := hrow.followable_absorbed h.followable
    exact ⟨hled, by simp [Forest.getElem?_adopt, hparent], hfollowable⟩

/-- The children that are still to be met are met either way, with the same
result. The links can still be followed then, which the next visit asks for. The
induction is on these children, and each case is one step of the loop. -/
theorem visitFrom_eq (h : Led p rest brood) {fuel : Nat} (hfuel : rest.length ≤ fuel) :
    Adoption.visitFrom p fuel rest.head? brood.adoption brood.length =
        (rest.foldlM (Brood.meet p) brood >>= fun brood => .ok brood.adoption) ∧
      ∀ brood', rest.foldlM (Brood.meet p) brood = .ok brood' →
        brood'.adoption.forest.Followable := by
  induction rest generalizing brood fuel with
  | nil =>
    refine ⟨?_, fun brood' hmeet => ?_⟩
    · cases fuel <;> rfl
    · cases hmeet
      exact h.followable
  | cons c rest ih =>
    cases fuel with
    | zero => exact absurd hfuel (Nat.not_succ_le_zero _)
    | succ fuel =>
      have hfuel' := Nat.le_of_succ_le_succ hfuel
      obtain ⟨node, hfetch, hnext⟩ := h.exists_fetch_eq
      rw [List.head?_cons, Adoption.visitFrom, List.foldlM_cons, Brood.meet, hfetch, except_ok_bind,
        except_ok_bind, hnext]
      cases hcollects : node.collects with
      | true =>
        -- Both take in the same siblings, and go on from the same state.
        obtain ⟨forest, habsorb, brood', hadopt, hadoption, hlength, hled⟩ := h.adopt
        have hrest := ih hled hfuel'
        rw [hadoption, hlength] at hrest
        simpa only [if_true, habsorb, hadopt, except_ok_bind] using hrest
      | false =>
        simp only [Bool.false_eq_true, if_false]
        cases hadd : brood.length.add? node.length with
        | none =>
          have hpass : brood.pass c node = .error .sizeOverflow := by rw [Brood.pass, hadd]
          rw [hpass]
          exact ⟨rfl, fun _ hok => by cases hok⟩
        | some length =>
          have hpass : brood.pass c node = .ok
              { adoption := { brood.adoption with waiting := c :: brood.adoption.waiting }
                run := brood.run.push c
                length := length } := by
            rw [Brood.pass, hadd]
          rw [hpass, except_ok_bind]
          exact ih (h.pass hpass) hfuel'

end Led

end Brood

namespace Adoption

/-- A visit comes to the same either way, and leaves links that can be followed.
A slot that is not in the array is the same fault in both. -/
theorem visitInPlace_eq (adoption : Adoption) (h : adoption.forest.Followable) (p : NodeId) :
    adoption.visitInPlace p = adoption.visit p ∧
      ∀ adoption', adoption.visit p = .ok adoption' → adoption'.forest.Followable := by
  rw [visitInPlace, visit]
  cases hnode : adoption.forest[p]? with
  | none =>
    rw [Forest.fetch, hnode]
    exact ⟨rfl, fun _ hok => by cases hok⟩
  | some node =>
    obtain ⟨ids, hrow⟩ := h p node hnode
    -- At first the run is empty, and all children are still to be met.
    have hled : Brood.Led p ids ⟨adoption, #[], 0⟩ :=
      ⟨hrow.ahead_eq ▸ hrow, by simp [hnode, hrow.ahead_eq], h⟩
    have hfetchRow := hrow.fetchRow_eq hrow.length_le #[]
    obtain ⟨heq, hfollowable⟩ := hled.visitFrom_eq hrow.length_le
    rw [Forest.fetch_eq_ok hnode, except_ok_bind, except_ok_bind, hfetchRow, except_ok_bind,
      Array.empty_append, List.foldlM_toArray, hrow.ahead_eq, heq]
    refine ⟨rfl, fun adoption' hvisit => ?_⟩
    obtain ⟨brood, hmeet, hvisit⟩ := exists_of_bind_eq_ok hvisit
    cases hvisit
    exact hfollowable brood hmeet

/-- All visits come to the same either way, by induction on the fuel. A slot
that is visited more than once on a cycle makes no difference, since nothing is
said of how often a slot waits. -/
theorem runInPlace_eq (adoption : Adoption) (h : adoption.forest.Followable) (fuel : Nat) :
    runInPlace fuel adoption = run fuel adoption := by
  induction fuel generalizing adoption with
  | zero =>
    obtain ⟨forest, _ | ⟨p, waiting⟩, events⟩ := adoption <;> rfl
  | succ fuel ih =>
    obtain ⟨forest, _ | ⟨p, waiting⟩, events⟩ := adoption
    · rfl
    · obtain ⟨heq, hfollowable⟩ := visitInPlace_eq ⟨forest, waiting, events⟩ h p
      rw [runInPlace, run, heq]
      cases hvisit : visit ⟨forest, waiting, events⟩ p with
      | error fault => rfl
      | ok adoption =>
        rw [except_ok_bind, except_ok_bind]
        exact ih adoption (hfollowable adoption hvisit)

end Adoption

/-- Adoption along the links comes to the same as `Forest.adoptRuns` for every
array: the same nodes, the same events in the same order, or the same fault. -/
theorem Forest.adoptRunsInPlace_eq (forest : Forest) :
    forest.adoptRunsInPlace = forest.adoptRuns := by
  rw [adoptRunsInPlace, adoptRuns, linkInOrder_eq_relink]
  split
  · rfl
  · cases hrelink : forest.relink with
    | error fault => rfl
    | ok linked =>
      have hlinked : linked.Followable := by
        obtain ⟨hclosed, rfl⟩ := relink_eq_ok_iff.1 hrelink
        exact forest.followable_familyLinked
      rw [except_ok_bind, except_ok_bind,
        Adoption.runInPlace_eq ⟨linked, [NodeId.root], #[]⟩ hlinked]

end ParseForest
