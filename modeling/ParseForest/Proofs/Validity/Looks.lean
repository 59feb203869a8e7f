import ParseForest.Proofs.Validity.Rooted

/-!
# `ParseForest.Proofs.Validity.Looks`: how long the climbs take

A climb looks at one node with every step. `Trail.Followed` lists the looks of
one climb and `Trail.Started` those of the climbs from the lowest slots, in
order, each with what was known of the node at that moment. Both say where the
steps lead without saying that they come to an end; that they do, whatever
circles the parents lead around in, is `Trail.exists_followed` and
`Trail.exists_started`.

A node of which nothing is known is passed when it is looked at, and something
is known of it from then on. So of all looks at a node only one can find nothing
known (`Trail.Started.count_add_le`). A look that finds something known is the
last one of its climb (`Trail.Followed.countP_known_le`), and there are as many
climbs as slots. Together these are no more than two looks for every slot:
`Trail.Started.length_le`.

`Forest.chainsRooted_looks` has this beside what is known between two climbs.
-/

set_option autoImplicit false

namespace ParseForest

namespace Trail

variable {forest : Forest} {trail trail' : Trail} {count : Nat} {id k : NodeId}
  {next : Option NodeId} {result : Except Rejection Trail}

/-- One look at a node, which finds it to have a standing, or none if it is not
in the array. -/
structure Look where
  id : NodeId
  standing : Option Standing
deriving DecidableEq, Repr

/-- Nothing is known of the node that is looked at. -/
def Look.isUnknown (look : Look) : Bool := look.standing = some .unknown

/-- A look counts as one that finds nothing known only if the node is in the
array. -/
theorem Look.isUnknown_iff {look : Look} : look.isUnknown = true ↔ look.standing = some .unknown :=
  decide_eq_true_iff

variable {looks : List Look}

/-- What a look at a node finds. -/
def look (trail : Trail) (id : NodeId) : Look := ⟨id, trail.standings[id]?⟩

/-- A climb that has come to a node goes on with one step for every look, and
ends with a result. -/
inductive Followed (forest : Forest) :
    Trail → NodeId → List Look → Except Rejection Trail → Prop
  | rejected {trail : Trail} {id : NodeId} {rejection : Rejection} :
    trail.step forest id = .error rejection →
      Followed forest trail id [trail.look id] (.error rejection)
  | ended {trail trail' : Trail} {id : NodeId} :
    trail.step forest id = .ok (trail', none) →
      Followed forest trail id [trail.look id] (.ok trail')
  | wentOn {trail trail' : Trail} {id parent : NodeId} {looks : List Look}
      {result : Except Rejection Trail} :
    trail.step forest id = .ok (trail', some parent) → Followed forest trail' parent looks result →
      Followed forest trail id (trail.look id :: looks) result

/-- The climbs from the slots below `count`, one behind the other. After a
rejection there are no more looks. -/
inductive Started (forest : Forest) : Nat → List Look → Except Rejection Trail → Prop
  | zero : Started forest 0 [] (.ok (blank forest.size))
  | climbed {start : Nat} {before looks : List Look} {trail : Trail}
      {result : Except Rejection Trail} :
    Started forest start before (.ok trail) → Followed forest trail start looks result →
      Started forest (start + 1) (before ++ looks) (result.map settle)
  | rejected {start : Nat} {before : List Look} {rejection : Rejection} :
    Started forest start before (.error rejection) →
      Started forest (start + 1) before (.error rejection)

/-! ### Climbs come to an end -/

/-- Whatever the parents lead to, a climb comes to its end. The induction is on
how many nodes nothing is known of, of which every step that goes on leaves one
less. -/
theorem exists_followed (forest : Forest) (trail : Trail) (id : NodeId) :
    ∃ looks, Followed forest trail id looks (trail.follow forest id) := by
  -- A step that goes on leaves one node less of which nothing is known.
  induction hn : trail.unknown using Nat.strongRecOn generalizing trail id with
  | ind n ih =>
    rw [follow]
    split
    · rename_i rejection hstep
      exact ⟨_, .rejected hstep⟩
    · rename_i trail' hstep
      exact ⟨_, .ended hstep⟩
    · rename_i trail' parent hstep
      obtain ⟨looks, hlooks⟩ := ih trail'.unknown (hn ▸ unknown_step hstep) trail' parent rfl
      exact ⟨_, .wentOn hstep hlooks⟩

/-- The climbs from one more slot are those from the slots before and then
one. -/
theorem afterStarts_succ (forest : Forest) (count : Nat) :
    afterStarts forest (count + 1) =
      afterStarts forest count >>= fun trail => climbFrom forest trail count :=
  foldlM_range_succ _ _ _

/-- The climbs from the lowest slots come to an end, the last one with a
rejection if there is one. -/
theorem exists_started (forest : Forest) (count : Nat) :
    ∃ looks, Started forest count looks (afterStarts forest count) := by
  induction count with
  | zero => exact ⟨[], .zero⟩
  | succ count ih =>
    obtain ⟨before, hbefore⟩ := ih
    rw [afterStarts_succ]
    cases hstart : afterStarts forest count with
    | error rejection =>
      rw [hstart] at hbefore
      exact ⟨before, .rejected hbefore⟩
    | ok trail =>
      rw [hstart] at hbefore
      obtain ⟨looks, hlooks⟩ := exists_followed forest trail count
      exact ⟨before ++ looks, .climbed hbefore hlooks⟩

/-- The looks of a climb determine nothing that the climb itself does not: it
ends with what `Trail.follow` answers. -/
theorem Followed.result_eq (h : Followed forest trail id looks result) :
    result = trail.follow forest id := by
  induction h with
  | rejected hstep =>
    rw [follow]
    split <;> simp_all
  | ended hstep =>
    rw [follow]
    split <;> simp_all
  | wentOn hstep _ ih =>
    rw [follow]
    split <;> simp_all

/-- There is only one way for the climbs to go, and they end with what the check
has after as many slots. -/
theorem Started.result_eq (h : Started forest count looks result) :
    result = afterStarts forest count := by
  induction h with
  | zero => rfl
  | climbed _ hlooks ih =>
    rw [afterStarts_succ, ← ih, except_ok_bind, climbFrom, ← hlooks.result_eq]
  | rejected _ ih => rw [afterStarts_succ, ← ih, except_error_bind]

/-! ### Looks that find nothing known -/

/-- 1 for a node of which nothing is known, else 0. -/
def unknownAt (trail : Trail) (k : NodeId) : Nat :=
  if trail.standings[k]? = some .unknown then 1 else 0

/-- The same for the trail that climbs end with, if they do not end with a
rejection. -/
def unknownAfter : Except Rejection Trail → NodeId → Nat
  | .ok trail, k => trail.unknownAt k
  | .error _, _ => 0

/-- A step passes a node of which nothing was known; otherwise it changes
nothing, and the climb ends with it. These are the two kinds of looks that are
counted apart. -/
theorem step_eq_ok (h : trail.step forest id = .ok (trail', next)) :
    (trail.standings[id]? = some .unknown ∧ trail' = trail.pass id) ∨
      (trail.standings[id]? ≠ some .unknown ∧ trail' = trail ∧ next = none) := by
  unfold step at h
  split at h
  · rename_i hstanding
    cases h
    exact Or.inr ⟨by simp [hstanding], rfl, rfl⟩
  · rename_i hstanding
    cases h
    exact Or.inr ⟨by simp [hstanding], rfl, rfl⟩
  · cases h
  · rename_i hstanding
    refine Or.inl ⟨hstanding, ?_⟩
    split at h
    · cases h
      rfl
    · split at h <;> cases h
      rfl

/-- A node counts once at most. -/
theorem unknownAt_le_one (trail : Trail) (k : NodeId) : trail.unknownAt k ≤ 1 := by
  unfold unknownAt
  split <;> omega

/-- The look of a step counts for a node of which nothing was known, and
something is known of it after the step. So the looks made and those that may
still come do not become more. -/
theorem count_look_add_le (h : trail.step forest id = .ok (trail', next)) (k : NodeId) :
    [trail.look id].count ⟨k, some .unknown⟩ + trail'.unknownAt k ≤ trail.unknownAt k := by
  rw [List.count_singleton]
  rcases step_eq_ok h with ⟨hunknown, rfl⟩ | ⟨hknown, rfl, -⟩
  · rw [unknownAt, getElem?_standings_pass (Array.getElem?_eq_some_iff.1 hunknown).1, unknownAt]
    by_cases hk : k = id
    · simp [hk, look, hunknown]
    · simp [hk, look, Ne.symm hk]
  · have hlook : trail'.look id ≠ ⟨k, some .unknown⟩ := by
      intro heq
      exact hknown (congrArg Look.standing heq)
    simp [hlook]

/-- The last look of a climb that is rejected finds at most what was unknown. -/
theorem count_look_le (trail : Trail) (id k : NodeId) :
    [trail.look id].count ⟨k, some .unknown⟩ ≤ trail.unknownAt k := by
  rw [List.count_singleton, unknownAt]
  by_cases heq : trail.look id = ⟨k, some .unknown⟩
  · obtain ⟨rfl, hstanding⟩ := Look.mk.inj heq
    simp [heq, hstanding]
  · simp [heq]

/-- Of the looks of a climb at a node, as many find nothing known as there was
nothing known before and something is after. -/
theorem Followed.count_add_le (h : Followed forest trail id looks result) (k : NodeId) :
    looks.count ⟨k, some .unknown⟩ + unknownAfter result k ≤ trail.unknownAt k := by
  induction h with
  | rejected _ => exact count_look_le _ _ k
  | ended hstep => exact count_look_add_le hstep k
  | @wentOn trail trail' id parent looks result hstep _ ih =>
    have hlook := count_look_add_le hstep k
    rw [← List.singleton_append, List.count_append]
    omega

/-- Settling makes nothing unknown. -/
theorem unknownAt_settle_le (trail : Trail) (k : NodeId) :
    trail.settle.unknownAt k ≤ trail.unknownAt k := by
  rw [unknownAt, getElem?_standings_settle, unknownAt]
  by_cases hk : k ∈ trail.path.toList
  · rw [if_pos hk]
    cases trail.standings[k]? <;> simp
  · rw [if_neg hk]

/-- Nor does settling at the end of a climb, if it comes to that. -/
theorem unknownAfter_settle_le (result : Except Rejection Trail) (k : NodeId) :
    unknownAfter (result.map settle) k ≤ unknownAfter result k := by
  cases result with
  | error rejection => exact Nat.le_refl 0
  | ok trail => exact unknownAt_settle_le trail k

/-- The same of all climbs together: looks that find nothing known of a node,
and what is unknown after them, come to no more than what was unknown before the
first. -/
theorem Started.count_add_le (h : Started forest count looks result) (k : NodeId) :
    looks.count ⟨k, some .unknown⟩ + unknownAfter result k ≤ (blank forest.size).unknownAt k := by
  induction h with
  | zero => simp [unknownAfter]
  | @climbed start before looks trail result _ hlooks ih =>
    have hclimb := hlooks.count_add_le k
    have hsettle := unknownAfter_settle_le result k
    rw [List.count_append]
    simp only [unknownAfter] at ih
    omega
  | rejected _ ih => exact ih

/-- No node is found unknown twice, by one climb or by two. -/
theorem Started.count_le_one (h : Started forest count looks result) (k : NodeId) :
    looks.count ⟨k, some .unknown⟩ ≤ 1 := by
  have hcount := h.count_add_le k
  have hblank := unknownAt_le_one (blank forest.size) k
  omega

/-- Only nodes of the array are found unknown. A look outside it finds no
standing at all. -/
theorem Started.lt_size_of_mem (h : Started forest count looks result)
    (hk : ⟨k, some .unknown⟩ ∈ looks) : k < forest.size := by
  have hcount := h.count_add_le k
  have hpos := List.count_pos_iff.2 hk
  have hblank : (blank forest.size).unknownAt k = if k < forest.size then 1 else 0 := by
    simp [unknownAt, blank, Array.getElem?_replicate]
  split at hblank
  · assumption
  · omega

/-- No more looks find nothing known than there are slots, because no two of
them are at one node. -/
theorem Started.countP_isUnknown_le (h : Started forest count looks result) :
    looks.countP Look.isUnknown ≤ forest.size := by
  have heq : ∀ look ∈ looks.filter Look.isUnknown, look = ⟨look.id, some .unknown⟩ := by
    intro look hlook
    rw [← Look.isUnknown_iff.1 (List.of_mem_filter hlook)]
  have hnodup : (looks.filter Look.isUnknown).Nodup := by
    refine List.nodup_iff_count_le_one.2 fun look => ?_
    by_cases hlook : look ∈ looks.filter Look.isUnknown
    · rw [List.count_filter (List.of_mem_filter hlook), heq look hlook]
      exact h.count_le_one look.id
    · rw [List.count_eq_zero_of_not_mem hlook]
      exact Nat.zero_le 1
  rw [List.countP_eq_length_filter, ← List.length_map (f := Look.id)]
  refine Forest.length_le_size (hnodup.map_on fun look hlook look' hlook' hid => ?_) fun k hk => ?_
  · rw [heq look hlook, heq look' hlook', hid]
  · obtain ⟨look, hlook, rfl⟩ := List.mem_map.1 hk
    exact h.lt_size_of_mem (heq look hlook ▸ List.mem_of_mem_filter hlook)

/-! ### Looks that find something known -/

/-- A climb ends when it looks at a node of which something is known, so it does
that once at most. -/
theorem Followed.countP_known_le (h : Followed forest trail id looks result) :
    looks.countP (fun look => ¬ look.isUnknown) ≤ 1 := by
  induction h with
  | rejected _ => exact List.countP_le_length
  | ended _ => exact List.countP_le_length
  | @wentOn trail trail' id parent looks result hstep _ ih =>
    rcases step_eq_ok hstep with ⟨hunknown, -⟩ | ⟨-, -, hnone⟩
    · rw [List.countP_cons_of_neg (by simp [look, Look.isUnknown, hunknown])]
      exact ih
    · cases hnone

/-- There are no more such looks than climbs. -/
theorem Started.countP_known_le (h : Started forest count looks result) :
    looks.countP (fun look => ¬ look.isUnknown) ≤ count := by
  induction h with
  | zero => exact Nat.le_refl 0
  | climbed _ hlooks ih =>
    rw [List.countP_append]
    exact Nat.add_le_add ih hlooks.countP_known_le
  | rejected _ ih => exact Nat.le_succ_of_le ih

/-- All looks together are no more than the slots and the climbs: each finds
nothing known, or is the last of its climb. -/
theorem Started.length_le (h : Started forest count looks result) :
    looks.length ≤ forest.size + count := by
  have hknown := h.countP_known_le
  have hunknown := h.countP_isUnknown_le
  rw [List.length_eq_countP_add_countP Look.isUnknown]
  omega

end Trail

namespace Forest

/-- In an array that holds all parents, let the climbs from the slots below `s`
have ended well. Then no climb is under way: no node was passed that is not
settled. The nodes known to be rooted are those on the way up from a slot below
`s`, that slot included, and the way up from each of them ends at the first
slot, which has no parent.

From the first climb to the last, and whatever circles the parents lead around
in, the steps come to an end, and the answer is that of the check. No node is
found unknown by two of them, so none is passed twice, and there are no more
than two steps for every slot. -/
theorem chainsRooted_looks (forest : Forest) (hclosed : forest.Closed) :
    (∀ s trail, s ≤ forest.size → Trail.afterStarts forest s = .ok trail →
        trail.path = #[] ∧ (∀ k : NodeId, trail.standings[k]? ≠ some .passed) ∧
          (∀ k : NodeId, trail.standings[k]? = some .rooted ↔
            ∃ r < s, forest.wayUp.AtOrAbove k r) ∧
          ∀ k : NodeId, trail.standings[k]? = some .rooted →
            forest.parent? NodeId.root = none ∧ forest.wayUp.AtOrAbove NodeId.root k) ∧
      (∃ looks result, Trail.Started forest forest.size looks result) ∧
      ∀ looks result, Trail.Started forest forest.size looks result →
        forest.chainsRooted = result.map (fun _ => ()) ∧
          (∀ k, looks.count ⟨k, some .unknown⟩ ≤ 1) ∧ looks.length ≤ 2 * forest.size := by
  refine ⟨fun s trail hs hstarts => ?_, ?_, fun looks result hlooks => ⟨?_, fun k => ?_, ?_⟩⟩
  · -- Between two starts what is known is settled: a start that has ended in a rejection
    -- leaves no trail.
    rcases Trail.afterStarts_cases hclosed hs with ⟨trail', hok, hsettled⟩ | ⟨_, _, _, _, _, herror⟩
    · rw [hstarts] at hok
      cases hok
      exact ⟨hsettled.path_eq, hsettled.not_passed, hsettled.rooted_iff, hsettled.leadsToRoot⟩
    · rw [hstarts] at herror
      cases herror
  · obtain ⟨looks, hlooks⟩ := Trail.exists_started forest forest.size
    exact ⟨looks, _, hlooks⟩
  · rw [chainsRooted, hlooks.result_eq]
  · exact hlooks.count_le_one k
  · have := hlooks.length_le
    omega

/-- A chain stored out of order that leads to the root, and a circle. -/
def winding : Forest := #[
  Node.fresh "root" none 0,
  Node.fresh "low" (some 3) 0,
  Node.fresh "high" (some 0) 0,
  Node.fresh "between" (some 2) 0,
  Node.fresh "around" (some 5) 0,
  Node.fresh "back" (some 4) 0]

/-- The bound where a chain is stored out of order and two slots make a circle:
the climb from slot 1 settles the whole chain, and the one from slot 4 goes once
around and is the last. -/
theorem chainsRooted_looks_winding :
    winding.Closed ∧ winding.chainsRooted = .error (.cycle 4) ∧
      (∃ trail, Trail.afterStarts winding 2 = .ok trail ∧ trail.path = #[] ∧
        trail.standings[2]? = some .rooted) ∧
      ∃ looks result, Trail.Started winding 6 looks result ∧ looks.length ≤ 12 := by
  have hclosed : winding.Closed := by decide
  have hcycle : winding.chainsRooted = .error (.cycle 4) := by decide +kernel
  have hstarts : Trail.afterStarts winding 2 =
      .ok ⟨#[.rooted, .rooted, .rooted, .rooted, .unknown, .unknown], #[]⟩ := by decide +kernel
  obtain ⟨hbetween, ⟨looks, result, hlooks⟩, hall⟩ := chainsRooted_looks winding hclosed
  obtain ⟨hpath, -, hrooted, -⟩ := hbetween 2 _ (by decide) hstarts
  have habove : winding.wayUp.Above 2 1 := by decide
  exact ⟨hclosed, hcycle, ⟨_, hstarts, hpath, (hrooted 2).2 ⟨1, by decide, habove.atOrAbove⟩⟩,
    looks, result, hlooks, (hall looks result hlooks).2.2⟩

end Forest

end ParseForest
