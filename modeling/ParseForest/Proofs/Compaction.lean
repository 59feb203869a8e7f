import ParseForest.Proofs.Compaction.Kept
import ParseForest.Proofs.Fallible

/-!
# `ParseForest.Proofs.Compaction`: the notes change nothing

`Forest.Climb` is the search for the nearest node above a slot that stays,
without notes and without a bound: it ends at the top level or at such a node,
and lists the removed nodes on the way. No climb comes by a node twice, so
`Forest.Climb.nearestKept?_eq` finds its answer among what is above the slot
within as many links as there are nodes.

`Resolution.Resolved` is the invariant of the pass: the slots dealt with have
their parents, the other nodes are as they were, and every note is right. A
search that takes a note finds what the climb would have found
(`Resolution.Resolved.climbWithin_eq`).

`Forest.compact_eq` says what the pass makes of an array from all of whose slots
the climb ends. Where no circle of parents goes through removed nodes alone
(`Forest.NoRemovedCycle`), every climb does, be there other circles or several
nodes at the top level. `Forest.compact_of_noRemovedCycle` spells out for these
arrays which nodes are left, and what their parents are.
-/

set_option autoImplicit false

namespace ParseForest

/-- A node without its parent. -/
def Node.orphan (node : Node) : Node := { node with parent := none }

namespace Forest

variable {forest : Forest} {start ancestor : Option NodeId} {path : List NodeId} {k p : NodeId}

/-- From a slot on, or from the top level on, the first node that stays is come
to by way of some removed nodes, in order. -/
inductive Climb (forest : Forest) : Option NodeId → List NodeId → Option NodeId → Prop
  | top : Climb forest none [] none
  | kept {id : NodeId} : forest.keptAt id = true → Climb forest (some id) [] (some id)
  | removed {id : NodeId} {path : List NodeId} {ancestor : Option NodeId} :
    id < forest.size → forest.keptAt id = false → Climb forest (forest.parent? id) path ancestor →
      Climb forest (some id) (id :: path) ancestor

namespace Climb

/-- There is only one climb from a slot. Each node on the way is removed, and so
not the end, or it stays, and is the end. -/
theorem unique {path' : List NodeId} {ancestor' : Option NodeId}
    (h : forest.Climb start path ancestor) (h' : forest.Climb start path' ancestor') :
    path = path' ∧ ancestor = ancestor' := by
  induction h generalizing path' with
  | top =>
    cases h'
    exact ⟨rfl, rfl⟩
  | kept hkept =>
    cases h' with
    | kept _ => exact ⟨rfl, rfl⟩
    | removed _ hgone _ => simp [hkept] at hgone
  | removed _ hgone _ ih =>
    cases h' with
    | kept hkept => simp [hkept] at hgone
    | removed _ _ hrest' =>
      obtain ⟨hpath, hancestor⟩ := ih hrest'
      exact ⟨by rw [hpath], hancestor⟩

/-- The rest of a climb, from one of the nodes on the way: it ends where the
whole climb ends, and is shorter. -/
theorem of_mem (h : forest.Climb start path ancestor) (hk : k ∈ path) :
    k < forest.size ∧ forest.keptAt k = false ∧
      ∃ rest, forest.Climb (forest.parent? k) rest ancestor ∧ rest.length < path.length := by
  induction h with
  | top => cases hk
  | kept _ => cases hk
  | @removed id path ancestor hid hgone hrest ih =>
    rcases List.mem_cons.1 hk with rfl | hk
    · exact ⟨hid, hgone, path, hrest, Nat.lt_succ_self _⟩
    · obtain ⟨hlt, hgone, rest, hclimb, hlength⟩ := ih hk
      exact ⟨hlt, hgone, rest, hclimb, Nat.lt_succ_of_lt hlength⟩

/-- No climb comes by a node twice. The climb from the second time on would be
the whole climb and shorter than it. -/
theorem nodup (h : forest.Climb start path ancestor) : path.Nodup := by
  induction h with
  | top => exact List.nodup_nil
  | kept _ => exact List.nodup_nil
  | @removed id path ancestor _ _ hrest ih =>
    refine List.nodup_cons.2 ⟨fun hmem => ?_, ih⟩
    -- The climb from the second time on would be the whole climb and shorter than it.
    obtain ⟨-, -, rest, hclimb, hlength⟩ := hrest.of_mem hmem
    rw [(hclimb.unique hrest).1] at hlength
    exact Nat.lt_irrefl _ hlength

/-- A climb ends at a node that stays, if not at the top level. -/
theorem keptAt_ancestor (h : forest.Climb start path (some k)) : forest.keptAt k = true := by
  generalize hk : some k = ancestor at h
  induction h with
  | top => cases hk
  | kept hkept =>
    cases hk
    exact hkept
  | removed _ _ _ ih => exact ih hk

/-- A climb comes by no more nodes than there are, the node that it ends at
included. It is what makes the bound on a search large enough. -/
theorem length_le (h : forest.Climb start path ancestor) :
    path.length + ancestor.toList.length ≤ forest.size := by
  -- The node the climb ends at stays, so it is none of those it has come by.
  have hnodup : (path ++ ancestor.toList).Nodup := by
    refine List.nodup_append.2 ⟨h.nodup, by cases ancestor <;> simp, ?_⟩
    intro k hk a ha heq
    subst heq
    obtain rfl : ancestor = some k := by simpa using ha
    have hgone := (h.of_mem hk).2.1
    simp [h.keptAt_ancestor] at hgone
  have hlt : ∀ k ∈ path ++ ancestor.toList, k < forest.size := by
    intro k hk
    rcases List.mem_append.1 hk with hk | hk
    · exact (h.of_mem hk).1
    · obtain rfl : ancestor = some k := by simpa using hk
      exact lt_size_of_keptAt h.keptAt_ancestor
  rw [← List.length_append]
  exact length_le_size hnodup hlt

/-- The climb from above a slot finds the nearest node above the slot that
stays. It may come by the slot itself, on a circle of parents. -/
theorem nearestKept?_eq (h : forest.Climb (forest.parent? k) path ancestor) :
    forest.nearestKept? forest.wayUp k = ancestor := by
  -- The bound is what remains of the links, so it goes down with the climb.
  suffices hlinks : ∀ links, path.length + ancestor.toList.length ≤ links →
      (forest.wayUp.ascent links k).find? forest.keptAt = ancestor from
    hlinks forest.size h.length_le
  generalize hstart : forest.parent? k = start at h
  induction h generalizing k with
  | top =>
    intro links _
    rw [WayUp.ascent_of_up_none hstart]
    rfl
  | kept hkept =>
    intro links hle
    cases links with
    | zero => simp at hle
    | succ links => simp [WayUp.ascent, wayUp, hstart, hkept]
  | removed _ hgone _ ih =>
    intro links hle
    cases links with
    | zero => simp at hle
    | succ links =>
      have hrest := ih rfl links (by rw [List.length_cons] at hle; omega)
      simp [WayUp.ascent, wayUp, hstart, hgone, hrest]

end Climb

/-- Every circle of parents comes by a node that stays. -/
def NoRemovedCycle (forest : Forest) : Prop :=
  ∀ k, forest.wayUp.Above k k →
    ∃ a, forest.wayUp.Above a k ∧ forest.wayUp.Above k a ∧ forest.keptAt a = true

instance (forest : Forest) : Decidable forest.NoRemovedCycle :=
  decidable_of_iff
    (∀ k < forest.size, forest.wayUp.Above k k →
      ∃ a < forest.size, forest.wayUp.Above a k ∧ forest.wayUp.Above k a ∧
        forest.keptAt a = true) <| by
    constructor
    · intro h k hk
      obtain ⟨a, -, ha⟩ := h k (lt_size_of_above hk) hk
      exact ⟨a, ha⟩
    · intro h k _ hk
      obtain ⟨a, ha⟩ := h k hk
      exact ⟨a, lt_size_of_keptAt ha.2.2, ha⟩

/-- If no circle goes through removed nodes alone, then what holds of a slot
whenever it holds of the parent, should that be removed, holds of all slots. It
is the induction that climbs are proved to end with. -/
theorem NoRemovedCycle.induction (h : forest.NoRemovedCycle) {motive : NodeId → Prop}
    (step : ∀ k, (∀ p, forest.parent? k = some p → forest.keptAt p = false → motive p) → motive k)
    (k : NodeId) : motive k := by
  have hacyclic : (forest.wayUp.among fun p => !forest.keptAt p).Acyclic := by
    refine WayUp.among_acyclic fun k hk => ?_
    obtain ⟨a, hak, hka, hkept⟩ := h k hk
    exact ⟨a, hak, hka, by rw [hkept]; rfl⟩
  have hwithin : (forest.wayUp.among fun p => !forest.keptAt p).Within forest.size := by
    intro k p hp
    exact lt_size_of_parent (WayUp.among_eq_some_iff.1 hp).1
  refine hacyclic.induction hwithin (fun k ih => step k fun p hp hgone => ih p ?_) k
  exact WayUp.among_eq_some_iff.2 ⟨hp, by rw [hgone]; rfl⟩

/-- If no circle goes through removed nodes alone, the climb from every slot
ends. The parents must be in the array, since a climb that comes to one outside
does not end. -/
theorem NoRemovedCycle.exists_climb (h : forest.NoRemovedCycle) (hclosed : forest.Closed)
    (k : NodeId) : ∃ path ancestor, forest.Climb (forest.parent? k) path ancestor := by
  -- A climb goes on over a link to a removed node, and over no other.
  refine h.induction
    (motive := fun k => ∃ path ancestor, forest.Climb (forest.parent? k) path ancestor) ?_ k
  intro k ih
  cases hp : forest.parent? k with
  | none => exact ⟨[], none, .top⟩
  | some p =>
    cases hkept : forest.keptAt p with
    | true => exact ⟨[], some p, .kept hkept⟩
    | false =>
      obtain ⟨path, ancestor, hclimb⟩ := ih p hp hkept
      exact ⟨p :: path, ancestor, .removed (hclosed k p hp) hkept hclimb⟩

/-- If no slot is above itself, the climb from every slot ends. -/
theorem exists_climb (hclosed : forest.Closed)
    (hacyclic : forest.wayUp.Acyclic) (k : NodeId) :
    ∃ path ancestor, forest.Climb (forest.parent? k) path ancestor :=
  NoRemovedCycle.exists_climb (fun j hj => absurd hj (hacyclic j)) hclosed k

end Forest

namespace Resolution

variable {forest : Forest} {resolution resolution' : Resolution} {count : Nat} {id k : NodeId}
  {start ancestor : Option NodeId} {path found : List NodeId}

/-- Making notes changes no node. -/
theorem forest_noteAll (resolution : Resolution) (ancestor : Option NodeId) (ids : List NodeId) :
    (ids.foldl (note · ancestor) resolution).forest = resolution.forest := by
  induction ids generalizing resolution with
  | nil => rfl
  | cons id ids ih => exact ih (resolution.note ancestor id)

/-- Making notes leaves room for as many as before. -/
theorem size_notes_noteAll (resolution : Resolution) (ancestor : Option NodeId)
    (ids : List NodeId) :
    (ids.foldl (note · ancestor) resolution).notes.size = resolution.notes.size := by
  induction ids generalizing resolution with
  | nil => rfl
  | cons id ids ih => exact (ih (resolution.note ancestor id)).trans Array.size_setIfInBounds

/-- Notes made for some nodes are found there, and the others are as they were.
The bound on `k` is needed because a note for a slot outside the array is not
kept. -/
theorem notes_noteAll (resolution : Resolution) (ancestor : Option NodeId) (ids : List NodeId)
    (k : NodeId) :
    (ids.foldl (note · ancestor) resolution).notes[k]?.join =
      if k ∈ ids ∧ k < resolution.notes.size then some ancestor
      else resolution.notes[k]?.join := by
  induction ids generalizing resolution with
  | nil => simp
  | cons id ids ih =>
    have hsize : (resolution.note ancestor id).notes.size = resolution.notes.size :=
      Array.size_setIfInBounds
    rw [List.foldl_cons, ih, hsize]
    simp only [note, Array.getElem?_setIfInBounds, List.mem_cons]
    by_cases hid : id = k
    · subst hid
      by_cases hlt : id < resolution.notes.size <;> simp [hlt]
    · simp [hid, Ne.symm hid]

/-- At first there are no notes. -/
theorem notes_ofForest (forest : Forest) (k : NodeId) :
    (ofForest forest).notes[k]?.join = none := by
  rw [ofForest, Array.getElem?_replicate]
  split <;> rfl

/-- The slots below `count` have been dealt with. -/
structure Resolved (forest : Forest) (count : Nat) (resolution : Resolution) : Prop where
  size_eq : resolution.forest.size = forest.size
  node_eq : ∀ k : NodeId, resolution.forest[k]? = forest[k]?.map fun node =>
    { node with
      parent :=
        if k < count ∧ forest.keptAt k = true then forest.nearestKept? forest.wayUp k
        else node.parent }
  notes_eq : ∀ (k : NodeId) (ancestor : Option NodeId), resolution.notes[k]?.join = some ancestor →
    forest.keptAt k = false ∧ ancestor = forest.nearestKept? forest.wayUp k

/-- At first nothing has changed and nothing is noted. It is the start of the
induction in `Resolution.exists_resolved`. -/
theorem resolved_ofForest (forest : Forest) : Resolved forest 0 (ofForest forest) where
  size_eq := rfl
  node_eq k := by simp [ofForest]
  notes_eq k ancestor h := by
    rw [notes_ofForest] at h
    cases h

namespace Resolved

/-- More notes, all of them right, leave the invariant as it is. -/
theorem noteAll (h : Resolved forest count resolution) (ids : List NodeId)
    (hids : ∀ id ∈ ids, forest.keptAt id = false ∧
      ancestor = forest.nearestKept? forest.wayUp id) :
    Resolved forest count (ids.foldl (Resolution.note · ancestor) resolution) := by
  refine ⟨?_, ?_, fun k ancestor' hk => ?_⟩
  · rw [forest_noteAll]
    exact h.size_eq
  · rw [forest_noteAll]
    exact h.node_eq
  · rw [notes_noteAll] at hk
    split at hk
    · rename_i hmem
      cases hk
      exact hids k hmem.1
    · exact h.notes_eq k ancestor' hk

/-- A node that is to go is as it was, and one that stays still does. Only the
parent of a node that stays may be another one by now. -/
theorem fetch_eq (h : Resolved forest count resolution) (hid : id < forest.size) :
    ∃ node, resolution.forest.fetch id = .ok node ∧ node.removed = !forest.keptAt id ∧
      (forest.keptAt id = false ∨ count ≤ id → forest[id]? = some node) := by
  have hnode : forest[id]? = some forest[id] := Array.getElem?_eq_getElem hid
  have hfound := h.node_eq id
  rw [hnode, Option.map_some] at hfound
  refine ⟨_, Forest.fetch_eq_ok hfound, by simp [Forest.keptAt_eq hnode], fun hsame => ?_⟩
  have hnot : ¬ (id < count ∧ forest.keptAt id = true) := by
    rintro ⟨hlt, hkept⟩
    rcases hsame with hgone | hle
    · simp [hkept] at hgone
    · exact Nat.not_lt_of_le hle hlt
  rw [hnode, if_neg hnot]

/-- The nodes that a climb looks at are as they were: those that stay may have
got another parent, but the climb does not go past them. It goes past the
removed nodes on its way up to the first that has a note. -/
theorem climbWithin_eq (h : Resolved forest count resolution)
    (hclimb : forest.Climb start path ancestor) (fuel : Nat) (hfuel : path.length < fuel)
    (found : Array NodeId) :
    resolution.climbWithin fuel start found =
      .ok (ancestor,
        found ++ (path.takeWhile fun k => resolution.notes[k]?.join = none).toArray) := by
  induction hclimb generalizing fuel found with
  | top =>
    cases fuel with
    | zero => simp at hfuel
    | succ fuel => simp [climbWithin]
  | @kept id hkept =>
    cases fuel with
    | zero => simp at hfuel
    | succ fuel =>
      obtain ⟨node, hfetch, hremoved, -⟩ := h.fetch_eq (Forest.lt_size_of_keptAt hkept)
      rw [climbWithin]
      cases hnote : resolution.notes[id]?.join with
      | some ancestor =>
        have hgone := (h.notes_eq id ancestor hnote).1
        simp [hkept] at hgone
      | none => simp [hfetch, hremoved, hkept]
  | @removed id path ancestor hid hgone hrest ih =>
    cases fuel with
    | zero => simp at hfuel
    | succ fuel =>
      obtain ⟨node, hfetch, hremoved, hsame⟩ := h.fetch_eq hid
      rw [climbWithin]
      cases hnote : resolution.notes[id]?.join with
      | some ancestor' =>
        -- The note has the answer that the rest of the climb would have had.
        have hancestor := (h.notes_eq id ancestor' hnote).2
        rw [hrest.nearestKept?_eq] at hancestor
        simp [hnote, hancestor]
      | none =>
        have hparent := Forest.parent?_eq (hsame (Or.inl hgone))
        have hclimb := ih fuel (Nat.lt_of_succ_lt_succ hfuel) (found.push id)
        simp [hnote, hfetch, hremoved, hgone, ← hparent, hclimb]

/-- The bound on a search is no hindrance: no climb goes past more nodes than
there are. -/
theorem climb_eq (h : Resolved forest count resolution)
    (hclimb : forest.Climb start path ancestor) :
    resolution.climb start =
      .ok (ancestor, (path.takeWhile fun k => resolution.notes[k]?.join = none).toArray) := by
  have hlength := hclimb.length_le
  rw [climb, h.climbWithin_eq hclimb _ (by rw [h.size_eq]; omega), Array.empty_append]

/-- A removed node is dealt with when its note is made. Its own parent is left
as it is. -/
theorem skip (h : Resolved forest id resolution) (hgone : forest.keptAt id = false) :
    Resolved forest (id + 1) resolution := by
  have hsame : ∀ k, (k < id + 1 ∧ forest.keptAt k = true) ↔
      (k < id ∧ forest.keptAt k = true) := by
    intro k
    refine and_congr_left fun hkept => ?_
    have hne : k ≠ id := fun heq => by simp [← heq, hkept] at hgone
    exact ⟨fun hlt => Nat.lt_of_le_of_ne (Nat.le_of_lt_succ hlt) hne, Nat.lt_succ_of_lt⟩
  refine ⟨h.size_eq, fun k => ?_, h.notes_eq⟩
  simp only [hsame]
  exact h.node_eq k

/-- A kept node is dealt with when it has its parent. The other nodes are not
touched. -/
theorem reparent (h : Resolved forest id resolution) (hkept : forest.keptAt id = true)
    (hancestor : ancestor = forest.nearestKept? forest.wayUp id) :
    Resolved forest (id + 1) { resolution with
      forest := resolution.forest.modify id fun node => { node with parent := ancestor } } := by
  refine ⟨by simpa using h.size_eq, fun k => ?_, h.notes_eq⟩
  rw [Array.getElem?_modify, h.node_eq]
  by_cases heq : id = k
  · subst heq
    simp [hkept, hancestor]
  · have hlt : k < id + 1 ↔ k < id := by
      have hne : k ≠ id := fun h => heq h.symm
      exact ⟨fun hlt => Nat.lt_of_le_of_ne (Nat.le_of_lt_succ hlt) hne, Nat.lt_succ_of_lt⟩
    simp only [if_neg heq, hlt]

/-- Dealing with a slot makes notes for the nodes that the climb from there
comes by before it comes to a note, and then for the slot itself if its node is
to go. Otherwise the node gets its parent. -/
theorem resolve_eq (h : Resolved forest id resolution) (hid : id < forest.size)
    (hclimb : forest.Climb (forest.parent? id) path ancestor) :
    resolution.resolve id = .ok
      (let noted := (path.takeWhile fun k => resolution.notes[k]?.join = none).foldl
        (Resolution.note · ancestor) resolution
      if forest.keptAt id then
        { noted with
          forest := noted.forest.modify id fun node => { node with parent := ancestor } }
      else noted.note ancestor id) := by
  obtain ⟨node, hfetch, hremoved, hsame⟩ := h.fetch_eq hid
  have hparent := Forest.parent?_eq (hsame (Or.inr (Nat.le_refl id)))
  rw [Resolution.resolve, hfetch, except_ok_bind, ← hparent, h.climb_eq hclimb, except_ok_bind]
  simp only [List.foldl_toArray, hremoved]
  cases hkept : forest.keptAt id <;> rfl

/-- One slot is dealt with, if the climb from there ends. All new notes are
right, because from every node on the way the climb would have gone on to the
same answer. -/
theorem resolve (h : Resolved forest id resolution) (hid : id < forest.size)
    (hclimb : forest.Climb (forest.parent? id) path ancestor) :
    ∃ resolution', resolution.resolve id = .ok resolution' ∧
      Resolved forest (id + 1) resolution' := by
  have hancestor := hclimb.nearestKept?_eq.symm
  refine ⟨_, h.resolve_eq hid hclimb, ?_⟩
  -- From every node on the way the climb would have gone on to the same answer.
  have hnoted := h.noteAll (path.takeWhile fun k => resolution.notes[k]?.join = none)
    fun k hk => by
      obtain ⟨-, hgone, rest, hrest, -⟩ := hclimb.of_mem (List.takeWhile_subset _ hk)
      exact And.intro hgone hrest.nearestKept?_eq.symm
  cases hkept : forest.keptAt id with
  | false => exact (hnoted.noteAll [id] (by simp [hkept, hancestor])).skip hkept
  | true => exact hnoted.reparent hkept hancestor

end Resolved

/-- All slots are dealt with if the climb from each of them ends. The induction
is on how many were dealt with. -/
theorem exists_resolved
    (hclimbs : ∀ k, ∃ path ancestor, forest.Climb (forest.parent? k) path ancestor) :
    ∃ resolution, resolved forest forest.size = .ok resolution ∧
      Resolved forest forest.size resolution := by
  have hstep : ∀ k resolution, k < forest.size → Resolved forest k resolution →
      (∃ resolution', resolution.resolve k = .ok resolution' ∧
        Resolved forest (k + 1) resolution') ∨
        ∃ fault, resolution.resolve k = .error fault ∧ False := by
    intro k resolution hk h
    obtain ⟨path, ancestor, hclimb⟩ := hclimbs k
    exact Or.inl (h.resolve hk hclimb)
  rcases foldlM_range_cases resolve (ofForest forest) forest.size (Resolved forest) _
    (resolved_ofForest forest) hstep with hok | ⟨_, -, hfalse⟩
  · exact hok
  · exact hfalse.elim

end Resolution

namespace Forest

variable {forest : Forest}

/-- If the climb from every slot ends, the nodes that stay are left, each under
the nearest node above it that stays. The notes have gone from the statement. -/
theorem compact_eq
    (hclimbs : ∀ k, ∃ path ancestor, forest.Climb (forest.parent? k) path ancestor) :
    forest.compact = .ok forest.pruned := by
  obtain ⟨resolution, hresolved, h⟩ := Resolution.exists_resolved hclimbs
  have hkeptAt : resolution.forest.keptAt = forest.keptAt :=
    keptAt_of_map h.node_eq fun _ _ => rfl
  -- Only the parents of removed nodes may still be removed, and these nodes are dropped.
  have hparents : ∀ k p, resolution.forest.keptAt k = true →
      resolution.forest.parent? k = some p → resolution.forest.keptAt p = true := by
    intro k p hkept hp
    rw [hkeptAt] at hkept ⊢
    have hlt := lt_size_of_keptAt hkept
    rw [parent?, h.node_eq, Array.getElem?_eq_getElem hlt] at hp
    simp only [Option.map_some, Option.bind_some, hlt, hkept, and_self, if_true] at hp
    exact List.find?_some hp
  rw [compact, hresolved, except_ok_bind]
  show Except.ok resolution.forest.dropRemoved = _
  rw [dropRemoved_eq hparents, keptWhere_of_map h.size_eq h.node_eq (fun _ _ => rfl),
    newSlot_of_keptAt hkeptAt, pruned]
  congr 1
  refine keptWhere_congr fun k node hnode hremoved => ?_
  have hkept := keptAt_of_stays hnode hremoved
  simp [lt_size_of_keptAt hkept, hkept]

/-- The parents apart, the nodes that stay are left as they were, and in
order. -/
theorem map_orphan_pruned (forest : Forest) :
    forest.pruned.map Node.orphan =
      (forest.filter fun node => !node.removed).map Node.orphan := by
  rw [pruned, map_keptWhere]
  exact forest.keptWhere_eq_map_filter Node.orphan

/-- An array with all parents in it can be compacted if no circle of them goes
through removed nodes alone. What is left is the nodes that stay, in order, with
nothing but their parents changed: where the climb over the parents as they were
ends, there is the new parent. On a circle that may be the node itself. -/
theorem compact_of_noRemovedCycle (forest : Forest) (hclosed : forest.Closed)
    (hcycle : forest.NoRemovedCycle) :
    ∃ kept, forest.compact = .ok kept ∧
      kept.size = forest.countP (fun node => !node.removed) ∧
      kept.map Node.orphan = (forest.filter fun node => !node.removed).map Node.orphan ∧
      ∀ (k : NodeId) (node : Node), forest[k]? = some node → node.removed = false →
        ∃ path ancestor, forest.Climb node.parent path ancestor ∧
          kept[forest.newSlot k]? =
            some { node with parent := ancestor.map forest.newSlot } := by
  have hclimbs := hcycle.exists_climb hclosed
  have hmap := forest.map_orphan_pruned
  refine ⟨forest.pruned, compact_eq hclimbs, ?_, hmap, fun k node hnode hremoved => ?_⟩
  · have hsize := congrArg Array.size hmap
    rwa [Array.size_map, Array.size_map, ← Array.countP_eq_size_filter] at hsize
  · obtain ⟨path, ancestor, hclimb⟩ := hclimbs k
    have hkept := forest.getElem?_keptWhere (fun k node =>
      { node with parent := (forest.nearestKept? forest.wayUp k).map forest.newSlot })
      hnode hremoved
    rw [hclimb.nearestKept?_eq] at hkept
    rw [parent?_eq hnode] at hclimb
    exact ⟨path, ancestor, hclimb, hkept⟩

/-- A node between two removed ones on a circle of three, a node whose removed
parents are stored behind it and lead to the circle, and two nodes that come to
the top level. -/
def looped : Forest := #[
  { Node.fresh "under" (some 5) 0 with collects := true },
  { Node.fresh "before" (some 2) 1 with removed := true },
  { Node.fresh "stays" (some 6) 1 with length := 3, child := some 1, last := some 6 },
  { Node.fresh "top" none 4 with removed := true },
  { Node.fresh "leaf" (some 3) 4 with length := 2 },
  { Node.fresh "group" (some 1) 0 with removed := true, collects := true },
  { Node.fresh "behind" (some 1) 1 with removed := true },
  { Node.fresh "other" none 6 with success := true }]

/-- The hypotheses hold of `looped`, and the node that stays on the circle
becomes its own parent: the climb goes once around and ends where it started. -/
theorem compact_of_noRemovedCycle_looped :
    looped.Closed ∧ looped.NoRemovedCycle ∧
      ∃ kept, looped.compact = .ok kept ∧ kept.size = 4 ∧
        ∃ path, looped.Climb (some 6) path (some 2) ∧
          kept[1]? = some { Node.fresh "stays" (some 1) 1 with
            length := 3, child := some 1, last := some 6 } := by
  have hclosed : looped.Closed := by decide
  have hcycle : looped.NoRemovedCycle := by decide +kernel
  obtain ⟨kept, hcompact, hsize, -, hkept⟩ := compact_of_noRemovedCycle looped hclosed hcycle
  obtain ⟨path, ancestor, hclimb, hnode⟩ := hkept 2 _ rfl rfl
  -- The climb goes once around the circle and ends where it started.
  have haround : looped.Climb (some 6) [6, 1] (some 2) :=
    .removed (by decide) (by decide) (.removed (by decide) (by decide) (.kept (by decide)))
  obtain ⟨-, rfl⟩ := hclimb.unique haround
  exact ⟨hclosed, hcycle, kept, hcompact, hsize.trans (by decide), path, hclimb, hnode⟩

end Forest

end ParseForest
