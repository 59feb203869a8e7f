import ParseForest.Proofs.Adoption.Nodes

/-!
# `ParseForest.Proofs.Adoption.Visits`: in which order adoption tells what it does

Adoption keeps the slots to visit on a stack. A visit takes one off and puts the
children that do not collect on, from the first to the last, so the last one is
next. `Forest.visitsFrom` is the order that comes of it, by recursion over the
parents: a slot, then what is visited from each of these children on, from the
last to the first.

What was visited, and behind it what is visited from the waiting slots on, is
the same list before and after every visit. So it is the whole list in the end
(`Adoption.Reached.run_visits`, by induction on the visits that are left), and
the events are those of its slots in this order (`Forest.adoptRuns_visits`).

The number that is told of a collecting node is that of the siblings before it
from the last collecting one on (`Forest.runBefore`). In a tree every slot that
has another parent after adoption is in one of these runs, and no slot is in
two: `Forest.absorbedTotal_visits`.
-/

set_option autoImplicit false

namespace ParseForest

namespace Event

/-- How many siblings were taken in, all in all. -/
def absorbedTotal : List Event → Nat
  | [] => 0
  | .absorbed _ count _ :: events => count + absorbedTotal events
  | _ :: events => absorbedTotal events

/-- The numbers of two stretches of events are added, so the total can be taken
visit by visit. -/
theorem absorbedTotal_append (before after : List Event) :
    absorbedTotal (before ++ after) = absorbedTotal before + absorbedTotal after := by
  induction before with
  | nil => simp [absorbedTotal]
  | cons event before ih =>
    cases event <;> simp [absorbedTotal, ih, Nat.add_assoc]

end Event

namespace Forest

variable {forest : Forest} {c k p : NodeId}

/-- The slots whose children go through adoption from a slot on: the slot, then
those from its children that do not collect on, from the last child to the
first. On a cycle there is no order. -/
def visitsFrom (forest : Forest) (p : NodeId) : List NodeId :=
  if _ : forest.wayUp.Above p p then []
  else
    p :: ((forest.family (some p)).filter fun k => !forest.collectsAt k).reverse.attach.flatMap
      fun ⟨k, _⟩ => visitsFrom forest k
termination_by forest.wayUp.countBelow forest.size p
decreasing_by
  rename_i hself hk
  have hmem := List.mem_of_mem_filter (List.mem_reverse.1 hk)
  exact WayUp.countBelow_lt forest.wayUp_within hself (mem_family_some.1 hmem)

/-- The slots whose children go through adoption, in the order in which they
do. -/
def visits (forest : Forest) : List NodeId :=
  if forest.isEmpty then [] else forest.visitsFrom NodeId.root

/-- The siblings that a collecting child of `p` takes in: those before it that
do not come before another one that collects. -/
def runBefore (forest : Forest) (p c : NodeId) : List NodeId :=
  (forest.family (some p)).filter fun k =>
    k < c ∧ ∀ d ∈ forest.family (some p), d < c → forest.collectsAt d → d ≤ k

/-- What is told when the children of a slot go through adoption: of each that
collects, from the first to the last, how many siblings it takes in. -/
def toldUnder (forest : Forest) (p : NodeId) : List Event :=
  ((forest.family (some p)).filter forest.collectsAt).map fun c =>
    .absorbed c (forest.runBefore p c).length p

/-! ### One visit -/

/-- A run is described by parents and flags alone. The last collecting sibling
before it is in it, and those that come before that one are not. -/
theorem mem_runBefore :
    k ∈ forest.runBefore p c ↔ forest.parent? k = some p ∧ k < c ∧
      ∀ d, forest.parent? d = some p → d < c → forest.collectsAt d → d ≤ k := by
  simp only [runBefore, List.mem_filter, decide_eq_true_eq, mem_family_some]

/-- A collecting child takes in the siblings for which it is the first
collecting one behind. On the left it is looked for from the collecting child,
and on the right from the sibling. -/
theorem mem_runBefore_iff_collectorAmong? (hc : forest.parent? c = some p)
    (hcollects : forest.collectsAt c = true) (hk : forest.parent? k = some p) :
    k ∈ forest.runBefore p c ↔
      forest.collectorAmong? (forest.family (some p)) k = some c := by
  rw [mem_runBefore, collectorAmong?_family_eq_some_iff]
  constructor
  · rintro ⟨-, hkc, hlast⟩
    refine ⟨⟨hkc, hc, hcollects⟩, fun d hdc hkd hd => ?_⟩
    rw [← Bool.not_eq_true]
    exact fun hcollects => Nat.not_lt_of_le (hlast d hd hdc hcollects) hkd
  · rintro ⟨⟨hkc, -, -⟩, hnone⟩
    refine ⟨hk, hkc, fun d hd hdc hcollects => Nat.le_of_not_lt fun hkd => ?_⟩
    rw [hnone d hdc hkd hd] at hcollects
    cases hcollects

/-- The events of a visit, with the siblings that are taken in counted where
they are: in the run before the collecting child. -/
theorem absorptions_family (forest : Forest) (p : NodeId) :
    forest.absorptions p (forest.family (some p)) = forest.toldUnder p := by
  rw [absorptions, toldUnder]
  refine List.map_congr_left fun c hc => ?_
  obtain ⟨hmem, hcollects⟩ := List.mem_filter.1 hc
  rw [List.countP_eq_length_filter, runBefore]
  congr 2
  refine List.filter_congr fun k hk => ?_
  have hiff := mem_runBefore_iff_collectorAmong? (mem_family_some.1 hmem) hcollects
    (mem_family_some.1 hk)
  rw [decide_eq_decide, ← hiff, runBefore, List.mem_filter, decide_eq_true_iff]
  exact and_iff_right hk

/-! ### The order of the visits -/

/-- Where there is no cycle, the slots are visited as `Forest.visitsFrom` is
meant: the slot, then what is visited from its children on. It is used in place
of the definition, whose recursion also carries the proofs that it ends. -/
theorem visitsFrom_eq (hself : ¬ forest.wayUp.Above p p) :
    forest.visitsFrom p =
      p :: ((forest.family (some p)).filter fun k => !forest.collectsAt k).reverse.flatMap
        forest.visitsFrom := by
  rw [visitsFrom, dif_neg hself]
  simp only [List.flatMap_def, List.map_attach_eq_pmap, List.pmap_eq_map]

end Forest

namespace Adoption.Reached

variable {forest : Forest} {visited : List NodeId} {adoption adoption' : Adoption}

/-- All visits that are left come behind those that were made, in order. The
induction is on the fuel; one visit takes a slot off the stack and puts its
children there, and the order of what is visited is the same before and
after. -/
theorem run_visits (h : Reached forest visited adoption) (htree : forest.IsTree) (fuel : Nat)
    (hrun : run fuel adoption = .ok adoption') :
    adoption'.waiting = [] ∧ ∃ visited', Reached forest visited' adoption' ∧
      visited'.reverse = visited.reverse ++ adoption.waiting.flatMap forest.visitsFrom := by
  induction fuel generalizing visited adoption with
  | zero =>
    obtain ⟨forest', _ | ⟨p, waiting⟩, events⟩ := adoption
    · cases hrun
      exact ⟨rfl, visited, h, by simp⟩
    · cases hrun
  | succ fuel ih =>
    obtain ⟨forest', _ | ⟨p, waiting⟩, events⟩ := adoption
    · cases hrun
      exact ⟨rfl, visited, h, by simp⟩
    · rw [run] at hrun
      rcases h.visit_passed_cases with ⟨brood, hvisit, hpassed⟩ | ⟨hvisit, -⟩
      · rw [hvisit, except_ok_bind] at hrun
        obtain ⟨hwaiting, visited', hreached, horder⟩ :=
          ih (h.of_passed htree.root_parent hpassed) hrun
        refine ⟨hwaiting, visited', hreached, ?_⟩
        -- The slot goes from the waiting ones to the visited ones, and leaves its children waiting.
        rw [horder, h.waiting_of_passed hpassed, List.flatMap_append, List.reverse_cons,
          List.flatMap_cons, Forest.visitsFrom_eq (htree.acyclic p)]
        simp
      · rw [hvisit] at hrun
        cases hrun

end Adoption.Reached

namespace Forest

variable {forest : Forest} {c k p : NodeId}

/-- The array that adoption answers with, if it answers, is that with all walked
slots visited. -/
theorem adoptRuns_answer (h : forest.IsTree) {adopted : Told Forest}
    (hadopted : forest.adoptRuns = .ok adopted) :
    adopted.answer = forest.adoptedWhere forest.walked := by
  rcases adoptRuns_cases h with ⟨visited, -, -, -, hruns⟩ | ⟨hruns, -⟩
  · rw [hruns] at hadopted
    cases hadopted
    rfl
  · rw [hruns] at hadopted
    cases hadopted

/-- In a tree the walked slots are visited, each once, and the events are told
in the order of the visits. -/
theorem adoptRuns_visits (h : forest.IsTree) {adopted : Told Forest}
    (hadopted : forest.adoptRuns = .ok adopted) :
    adopted.events.toList = forest.visits.flatMap forest.toldUnder ∧
      forest.visits.Nodup ∧ ∀ k, k ∈ forest.visits ↔ k < forest.size ∧ forest.Walked k := by
  by_cases hempty : forest.size = 0
  · rw [Array.size_eq_zero_iff] at hempty
    subst hempty
    cases hadopted
    simp [visits]
  · have hsize : 0 < forest.size := Nat.pos_of_ne_zero hempty
    have hstart := Adoption.reached_linked hsize h.root_parent
    have hvisits : forest.visits = forest.visitsFrom NodeId.root := by
      rw [visits, if_neg (by simpa using hempty)]
    rw [adoptRuns, if_neg (by simpa using hempty), relink_eq h.closed, except_ok_bind] at hadopted
    obtain ⟨adoption, hrun, hadopted⟩ := exists_of_bind_eq_ok hadopted
    cases hadopted
    obtain ⟨hwaiting, visited, hreached, horder⟩ := hstart.run_visits h _ hrun
    -- At first only the root waits, so all visits are those from the root on.
    have horder : visited.reverse = forest.visits := by
      rw [horder, hvisits]
      simp
    rw [← horder]
    refine ⟨by simp only [hreached.events_eq, absorptions_family], ?_, fun k => ?_⟩
    · exact List.nodup_reverse.2 (List.nodup_append.1 hreached.nodup).1
    · rw [List.mem_reverse, hreached.mem_iff hwaiting h]

/-! ### What the numbers add up to -/

/-- The siblings that are taken in by the collecting children of a slot. -/
def takenUnder (forest : Forest) (p : NodeId) : List NodeId :=
  ((forest.family (some p)).filter forest.collectsAt).flatMap (forest.runBefore p)

/-- The numbers told of the children of a slot add up to how many of them are
taken in. -/
theorem absorbedTotal_toldUnder (forest : Forest) (p : NodeId) :
    Event.absorbedTotal (forest.toldUnder p) = (forest.takenUnder p).length := by
  rw [toldUnder, takenUnder]
  induction (forest.family (some p)).filter forest.collectsAt with
  | nil => rfl
  | cons c collectors ih =>
    rw [List.map_cons, Event.absorbedTotal, ih, List.flatMap_cons, List.length_append]

/-- The numbers told of the children of several slots add up to how many slots
are taken in under them. -/
theorem absorbedTotal_flatMap (forest : Forest) (ids : List NodeId) :
    Event.absorbedTotal (ids.flatMap forest.toldUnder) =
      (ids.flatMap forest.takenUnder).length := by
  induction ids with
  | nil => rfl
  | cons p ids ih =>
    rw [List.flatMap_cons, Event.absorbedTotal_append, ih, absorbedTotal_toldUnder,
      List.flatMap_cons,
      List.length_append]

/-- A child is taken in exactly if a sibling behind it collects. -/
theorem mem_takenUnder :
    k ∈ forest.takenUnder p ↔ ∃ c, forest.parent? k = some p ∧
      forest.collectorAmong? (forest.family (some p)) k = some c := by
  rw [takenUnder, List.mem_flatMap]
  constructor
  · rintro ⟨c, hc, hk⟩
    obtain ⟨hmem, hcollects⟩ := List.mem_filter.1 hc
    have hp := (mem_runBefore.1 hk).1
    exact ⟨c, hp, (mem_runBefore_iff_collectorAmong? (mem_family_some.1 hmem) hcollects hp).1 hk⟩
  · rintro ⟨c, hp, hcollector⟩
    obtain ⟨⟨-, hc, hcollects⟩, -⟩ := collectorAmong?_family_eq_some_iff.1 hcollector
    exact ⟨c, List.mem_filter.2 ⟨mem_family_some.2 hc, hcollects⟩,
      (mem_runBefore_iff_collectorAmong? hc hcollects hp).2 hcollector⟩

/-- No sibling is taken in twice: it goes to the first collecting one behind
it. -/
theorem nodup_takenUnder (forest : Forest) (p : NodeId) : (forest.takenUnder p).Nodup := by
  refine List.nodup_flatMap.2 ⟨fun c _ => (forest.family_nodup _).filter _, ?_⟩
  refine ((forest.family_nodup (some p)).filter forest.collectsAt).imp_of_mem ?_
  intro c d hc hd hne k hkc hkd
  obtain ⟨hcMem, hcCollects⟩ := List.mem_filter.1 hc
  obtain ⟨hdMem, hdCollects⟩ := List.mem_filter.1 hd
  have hp := (mem_runBefore.1 hkc).1
  have hcEq := (mem_runBefore_iff_collectorAmong? (mem_family_some.1 hcMem) hcCollects hp).1 hkc
  have hdEq := (mem_runBefore_iff_collectorAmong? (mem_family_some.1 hdMem) hdCollects hp).1 hkd
  rw [hcEq] at hdEq
  exact hne (Option.some.inj hdEq)

/-- A slot has another parent after adoption exactly if a collecting node takes
it in. In a tree the new parent is never the old one, which would otherwise be
its own sibling. -/
theorem adoptedParent_ne_iff (h : forest.IsTree) :
    forest.adoptedParent forest.walked k ≠ forest.parent? k ↔ ∃ c p, forest.TakesIn c k p := by
  constructor
  · intro hne
    by_contra hnone
    exact hne (adoptedParent_eq_parent? fun c p hc => hnone ⟨c, p, hc⟩)
  · rintro ⟨c, p, hc⟩ heq
    rw [hc.adoptedParent_eq, hc.parent] at heq
    -- The collecting node would be its own parent.
    cases heq
    exact h.acyclic c (WayUp.above_iff_of_up hc.sibling |>.2 (WayUp.AtOrAbove.refl c))

/-- The slots that are taken in, visit by visit, are those whose parent has
changed, each once. Two visits are to two parents, so no slot is taken in by
both. -/
theorem takenUnder_visits_perm (h : forest.IsTree) (hnodup : forest.visits.Nodup)
    (hmem : ∀ k, k ∈ forest.visits ↔ k < forest.size ∧ forest.Walked k) :
    (forest.visits.flatMap forest.takenUnder).Perm
      ((List.range forest.size).filter fun k =>
        forest.adoptedParent forest.walked k ≠ forest.parent? k) := by
  refine (List.perm_ext_iff_of_nodup ?_ (List.nodup_range.filter _)).2 fun k => ?_
  · -- A slot is taken in under its parent only.
    refine List.nodup_flatMap.2 ⟨fun p _ => forest.nodup_takenUnder p, hnodup.imp ?_⟩
    intro p q hne k hp hq
    obtain ⟨-, hp, -⟩ := mem_takenUnder.1 hp
    obtain ⟨-, hq, -⟩ := mem_takenUnder.1 hq
    rw [hp] at hq
    exact hne (Option.some.inj hq)
  · simp only [List.mem_flatMap, hmem, mem_takenUnder, List.mem_filter, List.mem_range,
      decide_eq_true_eq, adoptedParent_ne_iff h, takesIn_iff]
    constructor
    · rintro ⟨p, ⟨-, hwalked⟩, c, hp, hcollector⟩
      exact ⟨lt_size_of_parent hp, c, p, hwalked, hp, hcollector⟩
    · rintro ⟨-, c, p, hwalked, hp, hcollector⟩
      exact ⟨p, ⟨h.closed k p hp, hwalked⟩, c, hp, hcollector⟩

/-- The numbers told add up to the number of slots whose parent adoption
changes. Nothing is said here of how the visits come about; it is enough that
each walked slot is visited once. -/
theorem absorbedTotal_visits (h : forest.IsTree) (hnodup : forest.visits.Nodup)
    (hmem : ∀ k, k ∈ forest.visits ↔ k < forest.size ∧ forest.Walked k) :
    Event.absorbedTotal (forest.visits.flatMap forest.toldUnder) =
      (List.range forest.size).countP fun k =>
        forest.adoptedParent forest.walked k ≠ forest.parent? k := by
  rw [absorbedTotal_flatMap, (takenUnder_visits_perm h hnodup hmem).length_eq,
    List.countP_eq_length_filter]

/-- Where a collecting node has a sibling before it, the last of them is taken
in. So no event tells of nobody, if no collecting node is a first child. -/
theorem runBefore_ne_nil (hfollow : ∀ d, ¬ forest.CollectsFirst d)
    (hc : forest.parent? c = some p) (hcollects : forest.collectsAt c = true) :
    forest.runBefore p c ≠ [] := by
  -- Some sibling comes before it, so there is a last one that does.
  obtain ⟨d, hdc, hd⟩ : ∃ d < c, forest.parent? d = some p := by
    by_contra hnone
    exact hfollow c ⟨hcollects, p, hc, fun d hd hdp => hnone ⟨d, hd, hdp⟩⟩
  have hbefore : ∀ k, k ∈ (forest.family (some p)).filter (· < c) ↔
      forest.parent? k = some p ∧ k < c := by
    intro k
    rw [List.mem_filter, mem_family_some, decide_eq_true_iff]
  have hsorted := (forest.family_pairwise (some p)).filter (· < c)
  rcases List.eq_nil_or_concat ((forest.family (some p)).filter (· < c)) with
    hnil | ⟨front, last, hsplit⟩
  · have hmem := (hbefore d).2 ⟨hd, hdc⟩
    rw [hnil] at hmem
    cases hmem
  · rw [hsplit, List.concat_eq_append] at hsorted hbefore
    obtain ⟨hlast, hlt⟩ := (hbefore last).1 (List.mem_append_right _ List.mem_cons_self)
    refine List.ne_nil_of_mem (mem_runBefore.2 ⟨hlast, hlt, fun e he hec _ => ?_⟩)
    rcases List.mem_append.1 ((hbefore e).2 ⟨he, hec⟩) with hfront | hself
    · exact Nat.le_of_lt ((List.pairwise_append.1 hsorted).2.2 e hfront last List.mem_cons_self)
    · exact Nat.le_of_eq (List.mem_singleton.1 hself)

end Forest

end ParseForest
