import Mathlib.Order.Bounds.Basic
import ParseForest.Proofs.Validity

/-!
# `ParseForest.Proofs.Validity.Grounds`: which rejection an array gets

An array may be malformed in many ways at once, and a rejection names one slot.
`Forest.RejectedFor` says which, for every array, in terms of the parents and
flags alone: the kinds of trouble have an order, and within a kind the lowest
slot that has it decides. That slot is the one named, except for ways up that
miss the root. There the lowest slot whose way up does is only the start, and
what is named lies at the end of the way or, if the way never ends, is the first
slot of it that lies on a cycle (`WayUp.FirstOnCycle`).

The climb finds that slot as the first one it comes back to. Before it no slot
lies on the cycle, because the way around the cycle goes through nothing but
slots passed since (`WayUp.Stretch.firstOnCycle`). `Forest.inspect_rejects_iff`
is the result.
-/

set_option autoImplicit false

namespace ParseForest

namespace WayUp

variable {up : WayUp} {a b c c' d k p s : NodeId} {path : List NodeId}

/-- On the way up from `s`, which starts with `s` itself, the first slot that
lies on a cycle. -/
def FirstOnCycle (up : WayUp) (s c : NodeId) : Prop :=
  ∃ path, up.Stretch s path c ∧ (∀ b ∈ path, ¬ up.Above b b) ∧ up.Above c c

/-- The slot directly above one in a stretch is in it, too, or it is the end of
the stretch. -/
theorem Stretch.mem_or_eq_of_up (h : up.Stretch k path b) (ha : a ∈ path) (hp : up a = some p) :
    p ∈ path ∨ p = b := by
  induction h with
  | nil k => cases ha
  | @cons k q b path hk hrest ih =>
    rcases List.mem_cons.1 ha with rfl | ha
    · rw [hk] at hp
      cases hp
      -- The rest starts at the slot directly above, if there is any rest.
      cases hrest with
      | nil => exact Or.inr rfl
      | cons _ _ => exact Or.inl (List.mem_cons_of_mem _ List.mem_cons_self)
    · exact (ih ha).imp_left (List.mem_cons_of_mem _)

/-- A stretch that ends at a slot of its own holds the whole way up from there:
it goes once around a cycle, and there is no way out of that. -/
theorem Stretch.mem_of_atOrAbove (h : up.Stretch k path b) (hb : b ∈ path)
    (ha : up.AtOrAbove a b) : a ∈ path := by
  induction ha with
  | refl => exact hb
  | tail _ hlink ih =>
    rcases h.mem_or_eq_of_up ih hlink with hmem | rfl
    · exact hmem
    · exact hb

/-- The first slot that a way up comes back to is the first of it that lies on a
cycle. -/
theorem Stretch.firstOnCycle (h : up.Stretch s path c) (hnodup : path.Nodup) (hc : c ∈ path) :
    up.FirstOnCycle s c := by
  induction h with
  | nil s => cases hc
  | @cons s p c path hs hrest ih =>
    obtain ⟨hnot, hnodup⟩ := List.nodup_cons.1 hnodup
    have habove : up.Above c c := ((Stretch.cons hs hrest).between hc).2
    rcases List.mem_cons.1 hc with rfl | hc
    · exact ⟨[], .nil c, fun b hb => absurd hb List.not_mem_nil, habove⟩
    · obtain ⟨before, hbefore, hnone, -⟩ := ih hnodup hc
      refine ⟨s :: before, .cons hs hbefore, List.forall_mem_cons.2 ⟨fun hself => hnot ?_, hnone⟩,
        habove⟩
      -- If `s` were above itself, it would come again in the rest of the stretch.
      rcases hrest.mem_or_atOrAbove ((above_iff_of_up hs).1 hself) with hmem | hsc
      · exact hmem
      · exact hrest.mem_of_atOrAbove hc hsc

/-- A way up has one first slot on a cycle at most. Of two stretches of one way
up one continues the other, and it would have the end of the shorter one among
its slots. -/
theorem FirstOnCycle.unique (h : up.FirstOnCycle s c) (h' : up.FirstOnCycle s c') : c = c' := by
  obtain ⟨path, hstretch, hbefore, hc⟩ := h
  obtain ⟨path', hstretch', hbefore', hc'⟩ := h'
  induction hstretch generalizing path' with
  | nil c =>
    cases hstretch' with
    | nil => rfl
    | cons _ _ => exact absurd hc (hbefore' c List.mem_cons_self)
  | @cons s p c path hs _ ih =>
    cases hstretch' with
    | nil => exact absurd hc' (hbefore _ List.mem_cons_self)
    | cons hs' hrest' =>
      rw [hs] at hs'
      cases hs'
      exact ih (fun b hb => hbefore b (List.mem_cons_of_mem s hb)) hc _ hrest'
        fun b hb => hbefore' b (List.mem_cons_of_mem s hb)

/-- A way up that comes to a cycle has no end: every slot on it has something
directly above. -/
theorem FirstOnCycle.up_ne_none (h : up.FirstOnCycle s c) (hd : up.AtOrAbove d s) :
    up d ≠ none := by
  obtain ⟨path, hstretch, -, hc⟩ := h
  intro hend
  exact not_above_self_of_end hend (hd.of_end hend hstretch.atOrAbove) hc

/-- A way up has at most one end. -/
theorem AtOrAbove.end_unique (hc : up.AtOrAbove c s) (hcend : up c = none)
    (hd : up.AtOrAbove d s) (hdend : up d = none) : c = d :=
  (hc.of_end hcend hd).eq_of_up_none hdend

end WayUp

namespace Forest

variable {forest : Forest} {rejection : Rejection} {c d k p s : NodeId}

/-- The way up from a slot ends at a slot without a parent. -/
def EndsAt (forest : Forest) (s d : NodeId) : Prop :=
  forest.wayUp.AtOrAbove d s ∧ forest.parent? d = none

/-- The slots with a parent that is not in the array. -/
def outsiders (forest : Forest) : Set NodeId :=
  {k | ∃ p, forest.parent? k = some p ∧ forest.size ≤ p}

/-- The slots from which the way up does not end at a root without a parent. -/
def astray (forest : Forest) : Set NodeId := {k | k < forest.size ∧ ¬ forest.LeadsToRoot k}

/-- The slots flagged as collecting that have a parent, and no lower slot with
the same parent. -/
def firstCollectors (forest : Forest) : Set NodeId := {k | forest.CollectsFirst k}

/-- What a rejection says of an array.

* The parent of a slot is not in the array; of such slots it is the lowest.
* All parents are in the array, and of the slots from which the way up does
  not end at the root the lowest one has a way up that ends elsewhere, at the
  slot that is named.
* The same, but the way up does not end. Then the slot that is named is the
  first of it on a cycle.
* All parents are in the array and all ways up end at the root. The slot that is
  named is the lowest that is to collect and comes first under its parent. -/
inductive RejectedFor (forest : Forest) : Rejection → Prop
  | parentOutside {k p : NodeId} : IsLeast forest.outsiders k → forest.parent? k = some p →
      RejectedFor forest (.parentOutside k p)
  | stray {s d : NodeId} : forest.Closed → IsLeast forest.astray s →
      forest.EndsAt s d → d ≠ NodeId.root → RejectedFor forest (.stray d)
  | cycle {s c : NodeId} : forest.Closed → IsLeast forest.astray s →
      (¬ ∃ d, forest.EndsAt s d ∧ d ≠ NodeId.root) → forest.wayUp.FirstOnCycle s c →
        RejectedFor forest (.cycle c)
  | nothingBefore {c : NodeId} : forest.Closed → forest.astray = ∅ →
      IsLeast forest.firstCollectors c → RejectedFor forest (.nothingBefore c)

/-! ### What is named is at fault -/

/-- What is in a set of slots while nothing before it is, is the least of the
set. Loops that go from the first slot on know no more than this of the slots
behind. -/
theorem isLeast_of_before {slots : Set NodeId} (hk : k ∈ slots) (hbefore : ∀ j < k, j ∉ slots) :
    IsLeast slots k :=
  ⟨hk, fun j hj => Nat.le_of_not_lt fun hlt => hbefore j hlt hj⟩

/-- The lowest slot from which a climb leads astray is the least from which the
way up misses the root. -/
theorem isLeast_astray (hs : s < forest.size) (hbefore : ∀ r < s, forest.LeadsToRoot r)
    (hnot : ¬ forest.LeadsToRoot s) : IsLeast forest.astray s :=
  isLeast_of_before ⟨hs, hnot⟩ fun r hr hastray => hastray.2 (hbefore r hr)

/-- If the way up from the lowest slot that leads astray does so for some
reason, this is a reason to reject the array. -/
theorem LeadsAstray.rejectedFor (h : forest.LeadsAstray s rejection) (hclosed : forest.Closed)
    (hs : IsLeast forest.astray s) : forest.RejectedFor rejection := by
  cases h with
  | cycle hstretch hnodup hc =>
    have hfirst := hstretch.firstOnCycle hnodup hc
    refine .cycle hclosed hs ?_ hfirst
    rintro ⟨d, ⟨hd, hnone⟩, -⟩
    exact hfirst.up_ne_none hd hnone
  | stray hd hnone hne => exact .stray hclosed hs ⟨hd, hnone⟩ hne

/-- Whatever the check rejects an array for is a reason to reject it. The loops
of the check come one after the other, so at each of them the questions before
it were answered well. -/
theorem rejectedFor_of_check (h : forest.check = .error rejection) :
    forest.RejectedFor rejection := by
  rcases forest.check_cases with ⟨hok, -⟩ | ⟨k, p, hbefore, hp, hle, herror⟩ |
    ⟨hclosed, s, reason, hs, hbefore, hastray, herror⟩ | ⟨htree, c, hc, hbefore, herror⟩
  · rw [h] at hok
    cases hok
  · rw [h] at herror
    cases herror
    refine .parentOutside (isLeast_of_before ⟨p, hp, hle⟩ ?_) hp
    rintro j hj ⟨q, hq, hout⟩
    exact Nat.not_lt_of_le hout (hbefore j q hj hq)
  · rw [h] at herror
    cases herror
    exact hastray.rejectedFor hclosed (isLeast_astray hs hbefore hastray.not_leadsToRoot)
  · rw [h] at herror
    cases herror
    refine .nothingBefore htree.closed ?_ (isLeast_of_before hc hbefore)
    refine Set.eq_empty_iff_forall_notMem.2 fun k hk => hk.2 ?_
    exact ⟨htree.root_parent, htree.root_atOrAbove k hk.1⟩

/-! ### What is at fault is named -/

/-- If the way up from a slot ends, it can only lead astray by its end. -/
theorem LeadsAstray.eq_stray (h : forest.LeadsAstray s rejection) (hd : forest.EndsAt s d) :
    rejection = .stray d := by
  cases h with
  | cycle hstretch hnodup hc =>
    exact absurd hd.2 ((hstretch.firstOnCycle hnodup hc).up_ne_none hd.1)
  | stray hend hnone _ => rw [hend.end_unique hnone hd.1 hd.2]

/-- If the way up from a slot comes to a cycle, it can only lead astray by the
first slot on it. -/
theorem LeadsAstray.eq_cycle (h : forest.LeadsAstray s rejection)
    (hc : forest.wayUp.FirstOnCycle s c) : rejection = .cycle c := by
  cases h with
  | cycle hstretch hnodup hmem => rw [(hstretch.firstOnCycle hnodup hmem).unique hc]
  | stray hend hnone _ => exact absurd hnone (hc.up_ne_none hend)

/-- If some parents are outside the array, the check names the one of the lowest
slot, whatever else may be amiss. -/
theorem check_of_isLeast_outsiders (hk : IsLeast forest.outsiders k)
    (hp : forest.parent? k = some p) : forest.check = .error (.parentOutside k p) := by
  obtain ⟨⟨q, hq, hle⟩, hlowest⟩ := hk
  rw [check]
  rcases forest.parentsPresent_cases with ⟨-, hclosed⟩ | ⟨j, r, hbefore, hr, hout, herror⟩
  · exact absurd (hclosed k q hq) (Nat.not_lt_of_le hle)
  · have hjk : j = k := by
      refine Nat.le_antisymm (Nat.le_of_not_lt fun hlt => ?_) (hlowest ⟨r, hr, hout⟩)
      exact Nat.not_lt_of_le hle (hbefore k q hlt hq)
    subst hjk
    rw [hr] at hp
    cases hp
    rw [herror, except_error_bind]

/-- If all parents are in the array and some way up misses the root, the check
rejects the array for the lowest slot from which one does. -/
theorem check_of_isLeast_astray (hclosed : forest.Closed) (hs : IsLeast forest.astray s) :
    ∃ rejection, forest.LeadsAstray s rejection ∧ forest.check = .error rejection := by
  rw [check]
  rcases forest.parentsPresent_cases with ⟨hok, -⟩ | ⟨k, p, -, hp, hle, -⟩
  · rcases chainsRooted_cases hclosed with
      ⟨-, hroot⟩ | ⟨s', rejection, hs', hbefore, hastray, herror⟩
    · exact absurd (hroot s hs.1.1) hs.1.2
    · cases hs.unique (isLeast_astray hs' hbefore hastray.not_leadsToRoot)
      exact ⟨rejection, hastray, by rw [hok, except_ok_bind, herror, except_error_bind]⟩
  · exact absurd (hclosed k p hp) (Nat.not_lt_of_le hle)

/-- If all ways up end at the root, the check names the lowest slot that is to
collect and comes first under its parent. -/
theorem check_of_isLeast_firstCollectors (hclosed : forest.Closed) (hroot : forest.astray = ∅)
    (hc : IsLeast forest.firstCollectors c) : forest.check = .error (.nothingBefore c) := by
  have htree : forest.IsTree := by
    refine isTree_of_leadsToRoot hclosed fun k hk => ?_
    by_contra hnot
    have hmem : k ∈ forest.astray := ⟨hk, hnot⟩
    rw [hroot] at hmem
    exact hmem
  rcases htree.check_cases with ⟨-, hnone⟩ | ⟨c', hc', hbefore, herror⟩
  · exact absurd hc.1 (hnone c)
  · rw [hc.unique (isLeast_of_before hc' hbefore), herror]

/-- An array is rejected exactly for what `Forest.RejectedFor` says of it, and
it is accepted if that says nothing. -/
theorem inspect_rejects_iff (forest : Forest) (rejection : Rejection) :
    forest.inspect.answer = .error rejection ↔ forest.RejectedFor rejection := by
  rw [inspect_answer]
  refine ⟨rejectedFor_of_check, fun h => ?_⟩
  cases h with
  | parentOutside hk hp => exact check_of_isLeast_outsiders hk hp
  | stray hclosed hs hend _ =>
    obtain ⟨rejection, hastray, herror⟩ := check_of_isLeast_astray hclosed hs
    rw [herror, hastray.eq_stray hend]
  | cycle hclosed hs _ hfirst =>
    obtain ⟨rejection, hastray, herror⟩ := check_of_isLeast_astray hclosed hs
    rw [herror, hastray.eq_cycle hfirst]
  | nothingBefore hclosed hroot hc => exact check_of_isLeast_firstCollectors hclosed hroot hc

/-- The way up from slot 1 comes to a cycle, and slot 2 is where it does. The
slots behind, of which one has no parent and one is to collect without a
sibling, are not looked at. -/
example : check #[Node.fresh "root" none 0, Node.fresh "lost" (some 2) 0,
    Node.fresh "around" (some 3) 0, Node.fresh "back" (some 2) 0, Node.fresh "stray" none 0,
    { Node.fresh "first" (some 0) 0 with collects := true }] = .error (.cycle 2) := by
  decide +kernel

end Forest

end ParseForest
