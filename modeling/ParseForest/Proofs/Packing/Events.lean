import ParseForest.Proofs.Adoption.Visits
import ParseForest.Proofs.Packing

/-!
# `ParseForest.Proofs.Packing.Events`: what is told when an array is packed

Checks and compaction tell nothing of an array that is packed, so what is told
is what adoption tells, and then how many nodes went in and how many came out.
The order, the numbers and their total are those of
`ParseForest.Proofs.Adoption.Visits`; that no number is zero is what the last of
the checks is for (`Forest.CollectsFirst`). `Forest.pack_events` is the result,
down to the wording.
-/

set_option autoImplicit false

namespace ParseForest

namespace Event

/-- The wording of what is told of a collecting node. -/
theorem display_absorbed (c p : NodeId) (count : Nat) :
    (absorbed c count p).display =
      "TRACE node #" ++ Nat.repr c ++ " absorbed " ++ Nat.repr count ++ " siblings under #" ++
        Nat.repr p := by
  have hunder : ∀ text : String, text ++ " siblings under " ++ "#" = text ++ " siblings under #" :=
    fun _ => String.append_assoc
  show "TRACE" ++ " " ++ ("node " ++ ("#" ++ Nat.repr c) ++ " absorbed " ++ Nat.repr count ++
    " siblings under " ++ ("#" ++ Nat.repr p)) = _
  simp only [← String.append_assoc, String.reduceAppend, hunder]

/-- The wording of what is told at the end. -/
theorem display_packed (top kept : Nat) :
    (packed top kept).display =
      "DEBUG packed " ++ Nat.repr top ++ " nodes into " ++ Nat.repr kept := by
  show "DEBUG" ++ " " ++ ("packed " ++ Nat.repr top ++ " nodes into " ++ Nat.repr kept) = _
  simp only [← String.append_assoc, String.reduceAppend]

end Event

namespace Forest

variable {forest : Forest} {count top : Nat} {c p : NodeId}

/-- The line of a listing for a collecting child of a slot. -/
def absorbedLine (forest : Forest) (p c : NodeId) : String :=
  "TRACE node #" ++ Nat.repr c ++ " absorbed " ++ Nat.repr (forest.runBefore p c).length ++
    " siblings under #" ++ Nat.repr p

/-- What is told of the children of a slot is a line for each of them that
collects. -/
theorem map_display_toldUnder (forest : Forest) (p : NodeId) :
    (forest.toldUnder p).map Event.display =
      ((forest.family (some p)).filter forest.collectsAt).map (forest.absorbedLine p) := by
  rw [toldUnder, List.map_map]
  exact List.map_congr_left fun c _ => Event.display_absorbed c p _

/-- In what the check accepts, a collecting node that is told of takes in some
sibling. It is no first child, so there is one before it. -/
theorem one_le_of_mem_toldUnder (hfollow : ∀ d, ¬ forest.CollectsFirst d) {q : NodeId}
    (h : .absorbed c count p ∈ forest.toldUnder q) : 1 ≤ count := by
  obtain ⟨d, hd, heq⟩ := List.mem_map.1 h
  obtain ⟨hmem, hcollects⟩ := List.mem_filter.1 hd
  cases heq
  have hne := runBefore_ne_nil hfollow (mem_family_some.1 hmem) hcollects
  exact List.length_pos_iff.2 hne

/-- The check tells nothing of what it accepts. -/
theorem inspect_events (h : forest.inspect.answer = .ok ()) : forest.inspect.events = #[] := by
  rw [inspect] at h ⊢
  split at h
  · rfl
  · cases h

/-- Linking leaves as many nodes as there were. So the number told at the end,
which is taken before, is the size of the answer. -/
theorem size_of_relink {linked : Forest} (h : forest.relink = .ok linked) :
    linked.size = forest.size := by
  rw [relink] at h
  split at h
  · cases h
  · cases h
    exact Array.size_mapIdx

/-- As many slots are used as are said to be, if there are so many. -/
theorem size_used (h : top ≤ forest.size) : (forest.used top).size = top := by
  simp [used, h]

/-- Packing tells what adoption tells, and at the end the number of nodes. The
check and the other two passes tell nothing. -/
theorem pack_told {out : Forest} {events : Array Event}
    (h : forest.pack top = .ok ⟨.ok out, events⟩) :
    ∃ adopted, (forest.used top).adoptRuns = .ok adopted ∧
      events.toList = adopted.events.toList ++ [.packed top out.size] := by
  -- Each pass has succeeded, since what comes after it has an answer.
  obtain ⟨htop, hcheck, -, -⟩ := pack_eq_ok_iff.1 ⟨events, h⟩
  have haccepted := ((forest.used top).inspect_answer).trans hcheck
  rw [pack_of_accepted htop haccepted, inspect_events haccepted] at h
  obtain ⟨adopted, hadopted, h⟩ := exists_of_bind_eq_ok h
  obtain ⟨kept, -, h⟩ := exists_of_bind_eq_ok h
  obtain ⟨linked, hlinked, h⟩ := exists_of_bind_eq_ok h
  cases h
  refine ⟨adopted, hadopted, ?_⟩
  simp [size_of_relink hlinked]

/-- Of an array that is packed is told:

* for each walked slot once, from the root on, a slot before what is below it
  and of two siblings the later before the earlier: of each child that collects,
  in order, how many of the siblings before it, from the last one on that
  collects, it takes in;
* then the number of the slots that were used and of the nodes that are left.

No collecting node takes in nothing, and the numbers of siblings add up to the
number of slots that have another parent after adoption. -/
theorem pack_events {out : Forest} {events : Array Event}
    (h : forest.pack top = .ok ⟨.ok out, events⟩) :
    ∃ adopted, (forest.used top).adoptRuns = .ok adopted ∧
      events.toList = adopted.events.toList ++ [.packed top out.size] ∧
      adopted.events.toList = (forest.used top).visits.flatMap (forest.used top).toldUnder ∧
      (events.map Event.display).toList =
        ((forest.used top).visits.flatMap fun p =>
          (((forest.used top).family (some p)).filter (forest.used top).collectsAt).map
            ((forest.used top).absorbedLine p)) ++
          ["DEBUG packed " ++ Nat.repr top ++ " nodes into " ++ Nat.repr out.size] ∧
      (forest.used top).visits.Nodup ∧
      (∀ k, k ∈ (forest.used top).visits ↔ k < top ∧ (forest.used top).Walked k) ∧
      (∀ c count p, .absorbed c count p ∈ events → 1 ≤ count) ∧
      Event.absorbedTotal events.toList =
        (List.range top).countP fun k =>
          adopted.answer.parent? k ≠ (forest.used top).parent? k := by
  obtain ⟨htop, hcheck, -, -⟩ := pack_eq_ok_iff.1 ⟨events, h⟩
  obtain ⟨htree, hfollow⟩ := check_eq_ok_iff.1 hcheck
  obtain ⟨adopted, hadopted, hevents⟩ := pack_told h
  obtain ⟨htold, hnodup, hmem⟩ := adoptRuns_visits htree hadopted
  refine ⟨adopted, hadopted, hevents, htold, ?_, hnodup, ?_, fun c count p hevent => ?_, ?_⟩
  · rw [Array.toList_map, hevents, htold, List.map_append, List.map_flatMap]
    simp only [map_display_toldUnder, List.map_cons, List.map_nil, Event.display_packed]
  · simpa [size_used htop] using hmem
  · -- What is told of a collecting node comes from a visit, and not from the last line.
    rw [← Array.mem_toList_iff, hevents, htold] at hevent
    rcases List.mem_append.1 hevent with hevent | hevent
    · obtain ⟨q, -, hq⟩ := List.mem_flatMap.1 hevent
      exact one_le_of_mem_toldUnder hfollow hq
    · simp at hevent
  · -- The last line takes in nobody, so the total is that of the visits.
    have hanswer : ∀ k, adopted.answer.parent? k =
        (forest.used top).adoptedParent (forest.used top).walked k := by
      rw [adoptRuns_answer htree hadopted]
      exact parent?_adoptedWhere _ _
    rw [hevents, Event.absorbedTotal_append, htold, absorbedTotal_visits htree hnodup hmem,
      size_used htop]
    simp only [hanswer, Event.absorbedTotal, Nat.add_zero]

/-- Two collecting nodes under the root, of which the second takes in the first,
and one under each of two nodes before them. Of these nodes the later one is
visited first. -/
def gathered : Forest := #[
  Node.fresh "root" none 0,
  Node.fresh "left" (some 0) 0,
  Node.fresh "right" (some 0) 0,
  Node.fresh "leftPart" (some 1) 0,
  { Node.fresh "leftAll" (some 1) 0 with collects := true },
  Node.fresh "rightPart" (some 2) 0,
  { Node.fresh "rightAll" (some 2) 0 with collects := true },
  { Node.fresh "both" (some 0) 0 with collects := true },
  Node.fresh "more" (some 0) 0,
  { Node.fresh "all" (some 0) 0 with collects := true }]

/-- The hypothesis holds of `gathered`. Six nodes are taken in by four
collecting ones, the children of the root before those of its children, and
those of the later child before those of the earlier one. -/
theorem pack_events_gathered :
    ∃ out adopted,
      gathered.pack 10 = .ok ⟨.ok out, #[.absorbed 7 2 0, .absorbed 9 2 0, .absorbed 6 1 2,
        .absorbed 4 1 1, .packed 10 10]⟩ ∧
      (gathered.used 10).adoptRuns = .ok adopted ∧
      (gathered.used 10).visits.flatMap (gathered.used 10).toldUnder =
        [.absorbed 7 2 0, .absorbed 9 2 0, .absorbed 6 1 2, .absorbed 4 1 1] ∧
      ((List.range 10).countP fun k =>
        adopted.answer.parent? k ≠ (gathered.used 10).parent? k) = 6 := by
  have hpack : gathered.pack 10 = .ok ⟨.ok (gathered.used 10).packed, #[.absorbed 7 2 0,
      .absorbed 9 2 0, .absorbed 6 1 2, .absorbed 4 1 1, .packed 10 10]⟩ := by decide +kernel
  obtain ⟨adopted, hadopted, hevents, htold, -, -, -, -, htotal⟩ := pack_events hpack
  have hsplit : [.absorbed 7 2 0, .absorbed 9 2 0, .absorbed 6 1 2, .absorbed 4 1 1] =
      adopted.events.toList := (List.append_inj' hevents rfl).1
  exact ⟨_, adopted, hpack, hadopted, htold.symm.trans hsplit.symm, htotal.symm⟩

end Forest

end ParseForest
