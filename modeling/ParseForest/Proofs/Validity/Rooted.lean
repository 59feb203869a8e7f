import ParseForest.Proofs.Fallible
import ParseForest.Proofs.Tree
import ParseForest.Validity.Rooted

/-!
# `ParseForest.Proofs.Validity.Rooted`: the climbs find every way up that misses the root

`Forest.chainsRooted` climbs from every slot and stops a climb at what an
earlier one has settled. `Trail.Settled` is the invariant between two climbs:
the rooted nodes are exactly those on the way up from a slot climbed from, and
from all of them the way up ends at a root without a parent. `Trail.Climbing` is
the invariant during a climb: on top of that, the nodes passed are the stretch
from the start to the node the climb has come to.

`Trail.follow_cases` is a climb, `Trail.afterStarts_cases` some climbs, and
`Forest.chainsRooted_cases` all of them: the array is accepted with every way up
ending at the root, or rejected for the lowest slot from which it does not.
`Forest.LeadsAstray` says what a rejection then means for that slot.
-/

set_option autoImplicit false

namespace ParseForest

namespace Forest

/-- The way up from a slot ends at a root without a parent. -/
def LeadsToRoot (forest : Forest) (k : NodeId) : Prop :=
  forest.parent? NodeId.root = none ∧ forest.wayUp.AtOrAbove NodeId.root k

/-- Why the way up from a slot does not end at the root: it runs into a cycle,
and `c` is the first node that it comes back to, or it ends at another node. -/
inductive LeadsAstray (forest : Forest) (start : NodeId) : Rejection → Prop
  | cycle {path : List NodeId} {c : NodeId} :
    forest.wayUp.Stretch start path c → path.Nodup → c ∈ path → LeadsAstray forest start (.cycle c)
  | stray {d : NodeId} :
    forest.wayUp.AtOrAbove d start → forest.parent? d = none → d ≠ NodeId.root →
      LeadsAstray forest start (.stray d)

variable {forest : Forest} {start k : NodeId} {rejection : Rejection}

/-- What is on a way up that ends at the root leads there, too. So all that a
climb has passed can be settled when it comes to the root. -/
theorem LeadsToRoot.of_atOrAbove (h : forest.LeadsToRoot start)
    (hk : forest.wayUp.AtOrAbove k start) : forest.LeadsToRoot k :=
  ⟨h.1, h.2.of_end h.1 hk⟩

/-- A way up that leads astray does not end at the root: it goes around for
ever, or it ends elsewhere, and there is only one way up. -/
theorem LeadsAstray.not_leadsToRoot (h : forest.LeadsAstray start rejection) :
    ¬ forest.LeadsToRoot start := by
  intro hroot
  cases h with
  | cycle hstretch _ hc =>
    have hlead := hroot.of_atOrAbove hstretch.atOrAbove
    exact WayUp.not_above_self_of_end hlead.1 hlead.2 (hstretch.between hc).2
  | stray hd hnone hne =>
    have hlead := hroot.of_atOrAbove hd
    exact hne (hlead.2.eq_of_up_none hnone).symm

end Forest

namespace Trail

variable {forest : Forest} {trail trail' : Trail} {count : Nat} {start id parent k : NodeId}

/-- The nodes known to be rooted are those on the way up from the first `count`
slots, and all of these ways up end at the root. -/
structure Knows (forest : Forest) (count : Nat) (trail : Trail) : Prop where
  size_eq : trail.standings.size = forest.size
  rooted_iff : ∀ k : NodeId, trail.standings[k]? = some .rooted ↔
    ∃ s, s < count ∧ forest.wayUp.AtOrAbove k s
  leadsToRoot : ∀ k : NodeId, trail.standings[k]? = some .rooted → forest.LeadsToRoot k

/-- The first `count` slots were climbed from, and no climb is under way. -/
structure Settled (forest : Forest) (count : Nat) (trail : Trail) : Prop
    extends Knows forest count trail where
  path_eq : trail.path = #[]
  not_passed : ∀ k : NodeId, trail.standings[k]? ≠ some .passed

/-- A climb from `start` has come to `id`, and the nodes before it were
passed. -/
structure Climbing (forest : Forest) (count : Nat) (start : NodeId) (trail : Trail)
    (id : NodeId) : Prop extends Knows forest count trail where
  id_lt : id < forest.size
  passed_iff : ∀ k : NodeId, trail.standings[k]? = some .passed ↔ k ∈ trail.path.toList
  stretch : forest.wayUp.Stretch start trail.path.toList id
  nodup : trail.path.toList.Nodup

/-- A climb from `start` has ended well: all on the way up is passed or was
rooted before. -/
structure Climbed (forest : Forest) (count : Nat) (start : NodeId) (trail : Trail) : Prop
    extends Knows forest count trail where
  passed_iff : ∀ k : NodeId, trail.standings[k]? = some .passed ↔ k ∈ trail.path.toList
  atOrAbove : ∀ k ∈ trail.path.toList, forest.wayUp.AtOrAbove k start
  covers : ∀ k, forest.wayUp.AtOrAbove k start →
    k ∈ trail.path.toList ∨ trail.standings[k]? = some .rooted
  start_leadsToRoot : forest.LeadsToRoot start

/-! ### Passing and settling -/

/-- Passing a slot of the array changes its standing and no other. -/
theorem getElem?_standings_pass (hid : id < trail.standings.size) (k : NodeId) :
    (trail.pass id).standings[k]? = if k = id then some .passed else trail.standings[k]? := by
  simp only [pass, Array.getElem?_setIfInBounds, eq_comm (a := id)]
  by_cases hk : k = id
  · subst hk
    simp [hid]
  · simp [hk]

/-- Settling loses no standing, so there is still one for each slot. -/
theorem size_standings_settle (trail : Trail) :
    trail.settle.standings.size = trail.standings.size := by
  obtain ⟨standings, path⟩ := trail
  simp only [settle, ← Array.foldl_toList]
  induction path.toList generalizing standings with
  | nil => rfl
  | cons id ids ih => rw [List.foldl_cons, ih, Array.size_setIfInBounds]

/-- Settling makes rooted what was passed, and changes nothing else. The path
may name a slot more than once or none of the array; neither makes a
difference. -/
theorem getElem?_standings_settle (trail : Trail) (k : NodeId) :
    trail.settle.standings[k]? =
      if k ∈ trail.path.toList then trail.standings[k]?.map fun _ => .rooted
      else trail.standings[k]? := by
  obtain ⟨standings, path⟩ := trail
  simp only [settle, ← Array.foldl_toList]
  generalize path.toList = ids
  induction ids generalizing standings with
  | nil => simp
  | cons id ids ih =>
    rw [List.foldl_cons, ih]
    simp only [Array.getElem?_setIfInBounds, List.mem_cons]
    by_cases hk : k = id
    · subst hk
      by_cases hlt : k < standings.size
      · simp [hlt]
      · simp [hlt]
    · simp [hk, Ne.symm hk]

/-! ### One climb -/

/-- Of a slot in the array nothing is known, or it was passed by the climb under
way, or it was settled. -/
theorem Knows.standing_cases (h : Knows forest count trail) (hid : id < forest.size) :
    trail.standings[id]? = some .unknown ∨ trail.standings[id]? = some .passed ∨
      trail.standings[id]? = some .rooted := by
  rw [← h.size_eq] at hid
  rw [Array.getElem?_eq_getElem hid]
  cases trail.standings[id] <;> simp

/-- Passing a node of which nothing was known leaves what was known of rooted
nodes. -/
theorem Knows.pass (h : Knows forest count trail)
    (hunknown : trail.standings[id]? = some .unknown) : Knows forest count (trail.pass id) := by
  have hid := (Array.getElem?_eq_some_iff.1 hunknown).1
  have hrooted : ∀ k : NodeId, (trail.pass id).standings[k]? = some .rooted ↔
      trail.standings[k]? = some .rooted := by
    intro k
    rw [getElem?_standings_pass hid]
    by_cases hk : k = id
    · simp [hk, hunknown]
    · simp [hk]
  refine ⟨?_, fun k => (hrooted k).trans (h.rooted_iff k), fun k hk => ?_⟩
  · simp only [Trail.pass, Array.size_setIfInBounds, h.size_eq]
  · exact h.leadsToRoot k ((hrooted k).1 hk)

/-- Passing a node puts it with the nodes passed, so the standings and the path
go on agreeing. -/
theorem passed_iff_pass (hunknown : trail.standings[id]? = some .unknown)
    (h : ∀ k : NodeId, trail.standings[k]? = some .passed ↔ k ∈ trail.path.toList) (k : NodeId) :
    (trail.pass id).standings[k]? = some .passed ↔ k ∈ (trail.pass id).path.toList := by
  rw [getElem?_standings_pass (Array.getElem?_eq_some_iff.1 hunknown).1]
  by_cases hk : k = id
  · simp [hk, Trail.pass]
  · simp [hk, Trail.pass, ← h k]

/-- A climb starts at a slot of the array, with nothing passed. The invariant of
a climb thus holds whenever the one between two climbs does. -/
theorem Settled.climbing (h : Settled forest count trail) (hstart : start < forest.size) :
    Climbing forest count start trail start := by
  refine ⟨h.toKnows, hstart, fun k => ?_, ?_, ?_⟩
  · simp [h.path_eq, h.not_passed k]
  · simpa [h.path_eq] using WayUp.Stretch.nil start
  · simp [h.path_eq]

/-- A node of which nothing was known was not passed by the climb under way,
because what it passes is marked. -/
theorem Climbing.not_mem_path (h : Climbing forest count start trail id)
    (hunknown : trail.standings[id]? = some .unknown) : id ∉ trail.path.toList := by
  intro hmem
  rw [← h.passed_iff, hunknown] at hmem
  cases hmem

/-- The climb passes a node of which nothing was known and comes to its parent.
No slot comes twice among those passed, since this one was not among them. -/
theorem Climbing.pass (h : Climbing forest count start trail id)
    (hunknown : trail.standings[id]? = some .unknown) (hparent : forest.parent? id = some parent)
    (hlt : parent < forest.size) : Climbing forest count start (trail.pass id) parent := by
  refine ⟨h.toKnows.pass hunknown, hlt, passed_iff_pass hunknown h.passed_iff, ?_, ?_⟩
  · simpa [Trail.pass] using h.stretch.snoc hparent
  · have hnotMem := h.not_mem_path hunknown
    simp only [Trail.pass, Array.toList_push]
    exact List.concat_eq_append ▸ h.nodup.concat hnotMem

/-- The climb ends at a node that was known to be rooted. What is above that
node was settled by an earlier climb, so everything on the way up is passed or
rooted. -/
theorem Climbing.climbed_of_rooted (h : Climbing forest count start trail id)
    (hrooted : trail.standings[id]? = some .rooted) : Climbed forest count start trail := by
  have hid := h.leadsToRoot id hrooted
  refine ⟨h.toKnows, h.passed_iff, fun k hk => (h.stretch.between hk).1, fun k hk => ?_, ?_⟩
  · -- Above a rooted node all is known to be rooted already.
    refine (h.stretch.mem_or_atOrAbove hk).imp_right fun hkid => ?_
    obtain ⟨s, hs, hids⟩ := (h.rooted_iff id).1 hrooted
    exact (h.rooted_iff k).2 ⟨s, hs, hids.trans hkid⟩
  · exact ⟨hid.1, h.stretch.atOrAbove.trans hid.2⟩

/-- The climb ends at the root, which has no parent, so nothing is above what
was passed. -/
theorem Climbing.climbed_of_root (h : Climbing forest count start trail NodeId.root)
    (hunknown : trail.standings[NodeId.root]? = some .unknown)
    (hnone : forest.parent? NodeId.root = none) :
    Climbed forest count start (trail.pass NodeId.root) := by
  refine ⟨h.toKnows.pass hunknown, passed_iff_pass hunknown h.passed_iff, ?_, fun k hk => ?_, ?_⟩
  · intro k hk
    simp only [Trail.pass, Array.toList_push, List.mem_append, List.mem_singleton] at hk
    rcases hk with hk | rfl
    · exact (h.stretch.between hk).1
    · exact h.stretch.atOrAbove
  · simp only [Trail.pass, Array.toList_push, List.mem_append, List.mem_singleton]
    rcases h.stretch.mem_or_atOrAbove hk with hmem | hroot
    · exact Or.inl (Or.inl hmem)
    · exact Or.inl (Or.inr (hroot.eq_of_up_none hnone))
  · exact ⟨hnone, h.stretch.atOrAbove⟩

/-- One step of a climb in an array that holds all parents: the climb ends well,
or it goes on with the parent, or it has led astray. -/
theorem Climbing.step_cases (hclosed : forest.Closed)
    (h : Climbing forest count start trail id) :
    (∃ trail', trail.step forest id = .ok (trail', none) ∧ Climbed forest count start trail') ∨
      (∃ trail' parent, trail.step forest id = .ok (trail', some parent) ∧
        Climbing forest count start trail' parent) ∨
      ∃ rejection, trail.step forest id = .error rejection ∧
        forest.LeadsAstray start rejection := by
  rcases h.standing_cases h.id_lt with hstanding | hstanding | hstanding
  · -- Nothing is known of the slot: the climb goes on to its parent, ends at the root, or
    -- ends at another slot without a parent.
    cases hparent : forest.parent? id with
    | some parent =>
      refine Or.inr (Or.inl ⟨trail.pass id, parent, by simp [step, hstanding, hparent], ?_⟩)
      exact h.pass hstanding hparent (hclosed id parent hparent)
    | none =>
      by_cases hroot : id = NodeId.root
      · subst hroot
        refine Or.inl ⟨trail.pass NodeId.root, by simp [step, hstanding, hparent], ?_⟩
        exact h.climbed_of_root hstanding hparent
      · refine Or.inr (Or.inr ⟨.stray id, by simp [step, hstanding, hparent, hroot], ?_⟩)
        exact .stray h.stretch.atOrAbove hparent hroot
  · -- What was passed was passed by this climb: it has come back.
    refine Or.inr (Or.inr ⟨.cycle id, by simp [step, hstanding], ?_⟩)
    exact .cycle h.stretch h.nodup ((h.passed_iff id).1 hstanding)
  · -- The rest of the way up was gone before, and it ends at the root.
    exact Or.inl ⟨trail, by simp [step, hstanding], h.climbed_of_rooted hstanding⟩

/-- A climb in an array that holds all parents ends well, or shows how it leads
astray. -/
theorem Climbing.follow_cases (hclosed : forest.Closed)
    (h : Climbing forest count start trail id) :
    (∃ trail', trail.follow forest id = .ok trail' ∧ Climbed forest count start trail') ∨
      ∃ rejection, trail.follow forest id = .error rejection ∧
        forest.LeadsAstray start rejection := by
  -- The induction is on the nodes of which nothing is known: a step that goes on leaves fewer.
  induction hn : trail.unknown using Nat.strongRecOn generalizing trail id with
  | ind n ih =>
    rw [follow]
    rcases h.step_cases hclosed with
      ⟨trail', hstep, hclimbed⟩ | ⟨trail', parent, hstep, hclimbing⟩ | ⟨rejection, hstep, hastray⟩
    · refine Or.inl ⟨trail', ?_, hclimbed⟩
      split <;> simp_all
    · have hrest := ih trail'.unknown (hn ▸ unknown_step hstep) hclimbing rfl
      split <;> simp_all
    · refine Or.inr ⟨rejection, ?_, hastray⟩
      split <;> simp_all

/-- Settling ends the climb from one more slot: what it passed is rooted now,
and nothing is on the path. -/
theorem Climbed.settled (h : Climbed forest count count trail) :
    Settled forest (count + 1) trail.settle := by
  -- What was passed is rooted now, and nothing else has changed.
  have hrooted : ∀ k : NodeId, trail.settle.standings[k]? = some .rooted ↔
      k ∈ trail.path.toList ∨ trail.standings[k]? = some .rooted := by
    intro k
    rw [getElem?_standings_settle]
    by_cases hk : k ∈ trail.path.toList
    · simp [hk, (h.passed_iff k).2 hk]
    · simp [hk]
  refine ⟨⟨?_, fun k => ?_, fun k hk => ?_⟩, rfl, fun k hk => ?_⟩
  · rw [size_standings_settle, h.size_eq]
  · rw [hrooted, Nat.exists_lt_succ_right, ← h.rooted_iff, or_comm]
    refine ⟨fun hk => hk.imp_right (h.atOrAbove k), fun hk => ?_⟩
    rcases hk with hold | hkc
    · exact Or.inl hold
    · exact (h.covers k hkc).symm
  · rcases (hrooted k).1 hk with hmem | hold
    · exact h.start_leadsToRoot.of_atOrAbove (h.atOrAbove k hmem)
    · exact h.leadsToRoot k hold
  · rw [getElem?_standings_settle] at hk
    by_cases hmem : k ∈ trail.path.toList
    · simp [hmem] at hk
    · rw [if_neg hmem, h.passed_iff] at hk
      exact hmem hk

/-! ### All climbs -/

/-- Before the first climb nothing is known of any node. -/
theorem blank_settled (forest : Forest) : Settled forest 0 (blank forest.size) := by
  refine ⟨⟨by simp [blank], fun k => ?_, fun k hk => ?_⟩, rfl, fun k hk => ?_⟩
  · simp [blank, Array.getElem?_replicate]
  · simp [blank, Array.getElem?_replicate] at hk
  · simp [blank, Array.getElem?_replicate] at hk

/-- The climbs from the first slots end well, or one of them leads astray and
those before it lead to the root. -/
theorem afterStarts_cases (hclosed : forest.Closed)
    (hcount : count ≤ forest.size) :
    (∃ trail, afterStarts forest count = .ok trail ∧ Settled forest count trail) ∨
      ∃ s rejection, s < count ∧ (∀ r < s, forest.LeadsToRoot r) ∧
        forest.LeadsAstray s rejection ∧ afterStarts forest count = .error rejection := by
  have hstep : ∀ s trail, s < count → Settled forest s trail →
      (∃ trail', climbFrom forest trail s = .ok trail' ∧ Settled forest (s + 1) trail') ∨
        ∃ rejection, climbFrom forest trail s = .error rejection ∧
          ∃ s < count, (∀ r < s, forest.LeadsToRoot r) ∧ forest.LeadsAstray s rejection := by
    intro s trail hs hsettled
    rw [climbFrom]
    rcases (hsettled.climbing (Nat.lt_of_lt_of_le hs hcount)).follow_cases hclosed with
      ⟨trail', hfollow, hclimbed⟩ | ⟨rejection, hfollow, hastray⟩
    · exact Or.inl ⟨trail'.settle, by rw [hfollow]; rfl, hclimbed.settled⟩
    · refine Or.inr ⟨rejection, by rw [hfollow]; rfl, s, hs, fun r hr => ?_, hastray⟩
      exact hsettled.leadsToRoot r ((hsettled.rooted_iff r).2 ⟨r, hr, WayUp.AtOrAbove.refl r⟩)
  rcases foldlM_range_cases (climbFrom forest) (blank forest.size) count (Settled forest) _
    (blank_settled forest) hstep with hok | ⟨rejection, herror, s, hs, hbefore, hastray⟩
  · exact Or.inl hok
  · exact Or.inr ⟨s, rejection, hs, hbefore, hastray, herror⟩

end Trail

/-- An array that holds all parents is accepted with every way up ending at the
root, or rejected for the lowest slot from which it does not. -/
theorem Forest.chainsRooted_cases {forest : Forest} (hclosed : forest.Closed) :
    (forest.chainsRooted = .ok () ∧ ∀ k < forest.size, forest.LeadsToRoot k) ∨
      ∃ s rejection, s < forest.size ∧ (∀ r < s, forest.LeadsToRoot r) ∧
        forest.LeadsAstray s rejection ∧ forest.chainsRooted = .error rejection := by
  rw [chainsRooted]
  rcases Trail.afterStarts_cases hclosed (Nat.le_refl forest.size) with
    ⟨trail, hok, hsettled⟩ | ⟨s, rejection, hs, hbefore, hastray, herror⟩
  · refine Or.inl ⟨by rw [hok]; rfl, fun k hk => ?_⟩
    exact hsettled.leadsToRoot k ((hsettled.rooted_iff k).2 ⟨k, hk, WayUp.AtOrAbove.refl k⟩)
  · exact Or.inr ⟨s, rejection, hs, hbefore, hastray, by rw [herror]; rfl⟩

end ParseForest
