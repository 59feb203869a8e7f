import ParseForest.Proofs.Packing

/-!
# `ParseForest.Proofs.Packing.Independence`: what packing looks at

Two runs are compared, on arrays that are alike in some fields.

* Links from before do not matter at all. The check does not look at them, and
  adoption starts from fresh ones, so arrays that differ in `child` and `next`
  alone have the same run (`Forest.pack_congr`).
* The shape of what is packed is decided by the shape of the array: by the
  parents and by the flags for removal and collecting (`Forest.SameShape`). The
  check asks for nothing else (`Forest.SameShape.check_eq`), and of what it
  accepts the packed trees have the same parents and links
  (`Forest.SameShape.place_packed`). Spans matter only in that a sum of lengths
  may be too long, which is a fault.

`Forest.pack_independent` is both.
-/

set_option autoImplicit false

namespace ParseForest

/-- What a node contributes to the shape of a tree. -/
def Node.shape (node : Node) : Option NodeId × Bool × Bool :=
  (node.parent, node.removed, node.collects)

/-- A climb is one step, and the rest of the climb if the step goes on. -/
theorem Trail.follow_eq_bind (forest : Forest) (trail : Trail) (k : NodeId) :
    trail.follow forest k = trail.step forest k >>= fun result =>
      match result.2 with
      | none => .ok result.1
      | some p => result.1.follow forest p := by
  rw [Trail.follow]
  split <;> rename_i hs <;> simp only [hs, except_ok_bind, except_error_bind]

namespace Forest

variable {forest forest' : Forest}

/-- Two arrays have the same parents and are flagged alike for removal and
collecting. -/
def SameShape (forest forest' : Forest) : Prop :=
  forest.map Node.shape = forest'.map Node.shape

/-- Arrays that differ in nothing but links have the same shape, since no link
is part of it. -/
theorem SameShape.of_unlinked (h : forest.map Node.unlinked = forest'.map Node.unlinked) :
    forest.SameShape forest' := by
  have hshape := congrArg (Array.map Node.shape) h
  rw [Array.map_map, Array.map_map] at hshape
  exact hshape

namespace SameShape

/-- Arrays of one shape have as many slots. -/
theorem size_eq (h : forest.SameShape forest') : forest.size = forest'.size := by
  have hsize := congrArg Array.size h
  rwa [Array.size_map, Array.size_map] at hsize

/-- Slot by slot, arrays of one shape have the same shape. -/
theorem shape_eq (h : forest.SameShape forest') (k : NodeId) :
    forest[k]?.map Node.shape = forest'[k]?.map Node.shape := by
  rw [← Array.getElem?_map, ← Array.getElem?_map, h]

/-- If some slots at the end are left off both, the shapes are still the
same. -/
theorem take (h : forest.SameShape forest') (top : Nat) :
    (forest.used top).SameShape (forest'.used top) := by
  show (forest.extract 0 top).map Node.shape = (forest'.extract 0 top).map Node.shape
  rw [Array.map_extract, Array.map_extract, h]

/-- The shape has the parents in it. -/
theorem parent?_eq (h : forest.SameShape forest') : forest.parent? = forest'.parent? := by
  funext k
  have hparent := congrArg (Option.bind · Prod.fst) (h.shape_eq k)
  rw [Option.bind_map, Option.bind_map] at hparent
  exact hparent

/-- The shape has the flags for removal in it, so the same nodes stay. -/
theorem keptAt_eq (h : forest.SameShape forest') : forest.keptAt = forest'.keptAt := by
  funext k
  have hremoved := congrArg (Option.any fun shape => !shape.2.1) (h.shape_eq k)
  rw [Option.any_map, Option.any_map] at hremoved
  exact hremoved

/-- The shape has the flags for collecting in it. -/
theorem collectsAt_eq (h : forest.SameShape forest') :
    forest.collectsAt = forest'.collectsAt := by
  funext k
  have hcollects := congrArg (Option.any fun shape => shape.2.2) (h.shape_eq k)
  rw [Option.any_map, Option.any_map] at hcollects
  exact hcollects

/-! ### The check -/

/-- Whether all parents are in the array is decided by the parents and the
size. -/
theorem parentsPresent_eq (h : forest.SameShape forest') :
    forest.parentsPresent = forest'.parentsPresent := by
  have hpresent : forest.parentPresent = forest'.parentPresent := by
    funext k
    rw [parentPresent, parentPresent, h.parent?_eq, h.size_eq]
  rw [parentsPresent, parentsPresent, hpresent, h.size_eq]

/-- A climb looks at nothing but parents. The induction is on the nodes of which
nothing is known, as for the climb itself. -/
theorem follow_eq (h : forest.SameShape forest') (trail : Trail) (k : NodeId) :
    trail.follow forest k = trail.follow forest' k := by
  -- The induction is on the nodes of which nothing is known, as for the climb itself.
  induction hn : trail.unknown using Nat.strongRecOn generalizing trail k with
  | ind n ih =>
    have hstep : trail.step forest k = trail.step forest' k := by
      rw [Trail.step, Trail.step, h.parent?_eq]
    rw [Trail.follow_eq_bind, Trail.follow_eq_bind, ← hstep]
    cases hs : trail.step forest k with
    | error rejection => rfl
    | ok result =>
      obtain ⟨trail', ahead⟩ := result
      cases ahead with
      | none => rfl
      | some p => exact ih trail'.unknown (hn ▸ Trail.unknown_step hs) trail' p rfl

/-- So the second check gives the same answer for arrays of one shape. -/
theorem chainsRooted_eq (h : forest.SameShape forest') :
    forest.chainsRooted = forest'.chainsRooted := by
  have hclimb : Trail.climbFrom forest = Trail.climbFrom forest' := by
    funext trail k
    rw [Trail.climbFrom, Trail.climbFrom, h.follow_eq]
  rw [chainsRooted, chainsRooted, Trail.afterStarts, Trail.afterStarts, hclimb, h.size_eq]

/-- The third check asks for parents and flags for collecting, and for nothing
else. -/
theorem collectorsFollow_eq (h : forest.SameShape forest') :
    forest.collectorsFollow = forest'.collectorsFollow := by
  have hfollows : forest.collectorFollows = forest'.collectorFollows := by
    funext seen k
    have hshape := h.shape_eq k
    rw [collectorFollows, collectorFollows]
    cases hnode : forest[k]? with
    | none =>
      cases hnode' : forest'[k]? with
      | none => rfl
      | some node' => simp [hnode, hnode'] at hshape
    | some node =>
      cases hnode' : forest'[k]? with
      | none => simp [hnode, hnode'] at hshape
      | some node' =>
        simp only [hnode, hnode', Option.map_some, Option.some.injEq, Node.shape,
          Prod.mk.injEq] at hshape
        simp only [hshape.1, hshape.2.2]
  rw [collectorsFollow, collectorsFollow, hfollows, h.size_eq]

/-- The check looks at the shape alone. It therefore names the same slot,
too. -/
theorem check_eq (h : forest.SameShape forest') : forest.check = forest'.check := by
  rw [check, check, h.parentsPresent_eq, h.chainsRooted_eq, h.collectorsFollow_eq]

/-- What is told of a rejection is the same as well. -/
theorem inspect_eq (h : forest.SameShape forest') : forest.inspect = forest'.inspect := by
  rw [inspect, inspect, h.check_eq]

/-! ### The packed tree -/

/-- Which slots are walked is decided by the flags for collecting at and above
them. -/
theorem walked_eq (h : forest.SameShape forest') : forest.walked = forest'.walked := by
  funext k
  rw [walked, walked, decide_eq_decide, Walked, Walked, wayUp, wayUp, h.parent?_eq,
    h.collectsAt_eq]

/-- The parents after adoption are decided by the shape. Spans are set by it,
but not asked for. -/
theorem adoptedParent_eq (h : forest.SameShape forest') :
    forest.adoptedParent forest.walked = forest'.adoptedParent forest'.walked := by
  funext k
  have hfamily : ∀ parent, forest.family parent = forest'.family parent :=
    family_congr h.size_eq (congrFun h.parent?_eq)
  simp only [adoptedParent, collectorAmong?, h.parent?_eq, h.walked_eq, h.collectsAt_eq, hfamily]

/-- The nodes that stay move to the same slots. -/
theorem newSlot_eq (h : forest.SameShape forest') : forest.newSlot = forest'.newSlot :=
  newSlot_of_keptAt h.keptAt_eq

/-- What stays of two arrays of one shape has the same parents in both. -/
theorem parent?_keptWhere_eq (h : forest.SameShape forest') :
    (forest.keptWhere forest.packedNode).parent? =
      (forest'.keptWhere forest'.packedNode).parent? := by
  funext j
  rcases Nat.lt_or_ge j (forest.newSlot forest.size) with hj | hj
  · obtain ⟨k, hk, rfl⟩ := exists_newSlot_eq forest hj
    have hk' : forest'.keptAt k = true := by rwa [← h.keptAt_eq]
    rw [forest.underNearest_packedNode.parent?_newSlot hk, h.newSlot_eq,
      forest'.underNearest_packedNode.parent?_newSlot hk', nearestKept?, nearestKept?, h.keptAt_eq,
      h.adoptedParent_eq, h.size_eq]
  · have hj' : forest'.newSlot forest'.size ≤ j := by rwa [← h.newSlot_eq, ← h.size_eq]
    rw [parent?_of_size_le (by rwa [size_keptWhere]), parent?_of_size_le (by rwa [size_keptWhere])]

/-- The packed trees of two arrays of one shape have the same parents and links,
as the links follow from the parents. -/
theorem place_packed (h : forest.SameShape forest') :
    forest.packed.map Node.place = forest'.packed.map Node.place := by
  refine map_place_familyLinked ?_ (congrFun h.parent?_keptWhere_eq)
  rw [size_keptWhere, size_keptWhere, h.newSlot_eq, h.size_eq]

end SameShape

/-! ### Two runs -/

/-- Adoption starts from fresh links, so those from before make no
difference. -/
theorem adoptRuns_congr (h : forest.map Node.unlinked = forest'.map Node.unlinked)
    (hclosed : forest.Closed) : forest.adoptRuns = forest'.adoptRuns := by
  have hshape := SameShape.of_unlinked h
  have hclosed' : forest'.Closed := by
    intro k p hp
    rw [← hshape.parent?_eq] at hp
    rw [← hshape.size_eq]
    exact hclosed k p hp
  have hempty : forest.isEmpty = forest'.isEmpty := by
    rw [Array.isEmpty, Array.isEmpty, hshape.size_eq]
  rw [adoptRuns, adoptRuns, relink_eq hclosed, relink_eq hclosed', familyLinked_congr h,
    hshape.size_eq, hempty]
  split
  · rename_i hnone
    rw [Array.isEmpty_iff.1 hnone, Array.isEmpty_iff.1 (hempty.trans hnone)]
  · rfl

/-- Arrays that differ in nothing but links have the same run: the same answer,
the same events and the same fault. -/
theorem pack_congr (h : forest.map Node.unlinked = forest'.map Node.unlinked) (top : Nat) :
    forest.pack top = forest'.pack top := by
  have hshape := SameShape.of_unlinked h
  have hused : (forest.used top).map Node.unlinked = (forest'.used top).map Node.unlinked := by
    show (forest.extract 0 top).map Node.unlinked = (forest'.extract 0 top).map Node.unlinked
    rw [Array.map_extract, Array.map_extract, h]
  have hinspect := (hshape.take top).inspect_eq
  rcases Nat.lt_or_ge forest.size top with hlt | hle
  · rw [pack_of_lt hlt, pack_of_lt (hshape.size_eq ▸ hlt), hshape.size_eq]
  · have hle' : top ≤ forest'.size := hshape.size_eq ▸ hle
    cases hanswer : (forest.used top).inspect.answer with
    | error rejection =>
      rw [pack_of_rejected hle hanswer, pack_of_rejected hle' (hinspect ▸ hanswer), hinspect]
    | ok _ =>
      have htree := (check_eq_ok_iff.1 ((forest.used top).inspect_answer ▸ hanswer)).1
      rw [pack_of_accepted hle hanswer, pack_of_accepted hle' (hinspect ▸ hanswer), hinspect,
        adoptRuns_congr hused htree.closed]

/-- Packing rejects an array that has fewer slots than are said to be used, or
that the check rejects. -/
theorem pack_rejected_iff {top : Nat} {rejection : Rejection} :
    (∃ events, forest.pack top = .ok ⟨.error rejection, events⟩) ↔
      forest.size < top ∧ rejection = .topBeyondArray top forest.size ∨
        top ≤ forest.size ∧ (forest.used top).check = .error rejection := by
  rw [← inspect_answer]
  rcases Nat.lt_or_ge forest.size top with hlt | hle
  · simp [pack_of_lt hlt, hlt, Nat.not_le_of_lt hlt, eq_comm]
  · cases hanswer : (forest.used top).inspect.answer with
    | error reason => simp [pack_of_rejected hle hanswer, hle, Nat.not_lt_of_le hle]
    | ok _ =>
      rcases pack_cases hle hanswer with ⟨⟨events, hpack⟩, -⟩ | ⟨hpack, -⟩
      · simp [hpack, Nat.not_lt_of_le hle]
      · simp [hpack, Nat.not_lt_of_le hle]

/-- What packing does, two arrays at a time.

* If they differ in nothing but `child` and `next`, it does the same with both:
  it answers with the same tree, rejects them for the same reason or comes upon
  the same fault, and tells the same.
* If they have the same parents and are flagged alike for removal and
  collecting, it rejects both, and for the same reason, or neither; and if it
  makes a tree of each, these are of one size and have the same parent, child
  and next sibling in every slot. -/
theorem pack_independent (forest forest' : Forest) (top : Nat) :
    (forest.map Node.unlinked = forest'.map Node.unlinked →
        forest.pack top = forest'.pack top) ∧
      (forest.map Node.shape = forest'.map Node.shape →
        (∀ rejection, (∃ events, forest.pack top = .ok ⟨.error rejection, events⟩) ↔
          ∃ events, forest'.pack top = .ok ⟨.error rejection, events⟩) ∧
        ∀ out out' events events', forest.pack top = .ok ⟨.ok out, events⟩ →
          forest'.pack top = .ok ⟨.ok out', events'⟩ →
            out.map Node.place = out'.map Node.place) := by
  refine ⟨fun h => pack_congr h top, fun h => ?_⟩
  have hshape : forest.SameShape forest' := h
  constructor
  · intro rejection
    rw [pack_rejected_iff, pack_rejected_iff, hshape.size_eq, (hshape.take top).check_eq]
  · intro out out' events events' hpack hpack'
    rw [(pack_eq_ok hpack).2, (pack_eq_ok hpack').2]
    exact (hshape.take top).place_packed

/-- The nodes of `crossed` with links left over from elsewhere. -/
def crossedStale : Forest :=
  crossed.map fun node => { node with child := some 5, next := some 77 }

/-- The nodes of `crossed` with one name and one span for all. -/
def crossedBlank : Forest :=
  crossed.map fun node => { node with name := "", offset := 7, length := 0, success := true }

/-- The hypotheses hold of `crossed` and two arrays made from it: one with links
left over, which is packed alike, and one with other names and spans, of which
another tree of the same shape comes. -/
theorem pack_independent_crossed :
    crossed.map Node.unlinked = crossedStale.map Node.unlinked ∧
      crossed.pack 6 = crossedStale.pack 6 ∧
      crossed.map Node.shape = crossedBlank.map Node.shape ∧
      ∃ out out' events events', crossed.pack 6 = .ok ⟨.ok out, events⟩ ∧
        crossedBlank.pack 6 = .ok ⟨.ok out', events'⟩ ∧ out ≠ out' ∧
        out.map Node.place = out'.map Node.place := by
  have hunlinked : crossed.map Node.unlinked = crossedStale.map Node.unlinked := by decide +kernel
  have hshape : crossed.map Node.shape = crossedBlank.map Node.shape := by decide +kernel
  have hpack : crossed.pack 6 = .ok ⟨.ok (crossed.used 6).packed,
      #[.absorbed 3 1 0, .absorbed 5 2 0, .packed 6 4]⟩ := by decide +kernel
  have hpack' : crossedBlank.pack 6 = .ok ⟨.ok (crossedBlank.used 6).packed,
      #[.absorbed 3 1 0, .absorbed 5 2 0, .packed 6 4]⟩ := by decide +kernel
  have hne : (crossed.used 6).packed ≠ (crossedBlank.used 6).packed := by decide +kernel
  exact ⟨hunlinked, (pack_independent crossed crossedStale 6).1 hunlinked, hshape, _, _, _, _,
    hpack, hpack', hne, ((pack_independent crossed crossedBlank 6).2 hshape).2 _ _ _ _ hpack hpack'⟩

end Forest

end ParseForest
