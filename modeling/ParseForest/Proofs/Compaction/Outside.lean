import Mathlib.Order.Bounds.Basic
import Mathlib.Order.WellFounded
import ParseForest.Proofs.Compaction

/-!
# `ParseForest.Proofs.Compaction.Outside`: climbs that leave the array

Compaction does not ask whether the parents are in the array. It gives up when a
climb comes to a parent that is not, and a climb goes on over removed nodes
alone: `Forest.LeadsOut` says from which slots it comes to such a parent, and to
which one. Where no circle of parents goes through removed nodes alone, every
climb ends or leads out (`Forest.NoRemovedCycle.climb_or_leadsOut`), and none
does both (`Forest.LeadsOut.not_climb`).

As long as all climbs have ended, every note is made for a node from which the
climb ends (`Resolution.Noted`). So no note comes between a slot and the parent
that its climb leads out to. `Resolution.Inward` is the invariant of the slots
that were dealt with, and one more slot keeps it or is the lowest from which the
climb leads out (`Resolution.Inward.step`). That is where the pass gives up:
`Forest.compact_eq_error_iff`.
-/

set_option autoImplicit false

namespace ParseForest

namespace WayUp

variable {up : WayUp} {b k : NodeId} {path : List NodeId}

/-- On the way to its end, a way up meets no slot twice. Otherwise it would be
on a cycle, and would have no end. -/
theorem Stretch.nodup_of_end (h : up.Stretch k path b) (hend : up b = none) : path.Nodup := by
  induction h with
  | nil k => exact List.nodup_nil
  | cons hk hrest ih =>
    refine List.nodup_cons.2 ⟨fun hmem => ?_, ih hend⟩
    have habove := (above_iff_of_up hk).2 (hrest.between hmem).1
    exact not_above_self_of_end hend (Stretch.cons hk hrest).atOrAbove habove

end WayUp

namespace Forest

variable {forest : Forest} {start ancestor : Option NodeId} {path : List NodeId}
  {k out out' p : NodeId}

/-- From a slot, by way of removed nodes alone, the parents lead to one that is
not in the array. -/
def LeadsOut (forest : Forest) (k out : NodeId) : Prop :=
  forest.size ≤ out ∧
    ∃ path, forest.wayUp.Stretch k (k :: path) out ∧ ∀ a ∈ path, forest.keptAt a = false

/-- A slot leads out if its parent is not in the array, or is removed and leads
out itself. It is the step that climbs and searches take. -/
theorem leadsOut_iff :
    forest.LeadsOut k out ↔ ∃ p, forest.parent? k = some p ∧
      (forest.size ≤ p ∧ p = out ∨
        p < forest.size ∧ forest.keptAt p = false ∧ forest.LeadsOut p out) := by
  constructor
  · rintro ⟨hout, path, hstretch, hpath⟩
    cases hstretch with
    | @cons _ p _ _ hp hrest =>
      refine ⟨p, hp, ?_⟩
      cases hrest with
      | nil => exact Or.inl ⟨hout, rfl⟩
      | @cons _ q _ path hq hrest =>
        obtain ⟨hgone, hpath⟩ := List.forall_mem_cons.1 hpath
        exact Or.inr ⟨lt_size_of_parent hq, hgone, hout, path, .cons hq hrest, hpath⟩
  · rintro ⟨p, hp, ⟨hout, rfl⟩ | ⟨-, hgone, hout, path, hstretch, hpath⟩⟩
    · exact ⟨hout, [], .cons hp (.nil p), fun _ ha => absurd ha List.not_mem_nil⟩
    · exact ⟨hout, p :: path, .cons hp hstretch, List.forall_mem_cons.2 ⟨hgone, hpath⟩⟩

/-- From every slot the climb ends or leads out, if no circle goes through
removed nodes alone. The parents may be anything here. -/
theorem NoRemovedCycle.climb_or_leadsOut (h : forest.NoRemovedCycle) (k : NodeId) :
    (∃ path ancestor, forest.Climb (forest.parent? k) path ancestor) ∨
      ∃ out, forest.LeadsOut k out := by
  refine h.induction (motive := fun k =>
    (∃ path ancestor, forest.Climb (forest.parent? k) path ancestor) ∨
      ∃ out, forest.LeadsOut k out) ?_ k
  intro k ih
  cases hp : forest.parent? k with
  | none => exact Or.inl ⟨[], none, .top⟩
  | some p =>
    cases hkept : forest.keptAt p with
    | true => exact Or.inl ⟨[], some p, .kept hkept⟩
    | false =>
      rcases Nat.lt_or_ge p forest.size with hlt | hout
      · rcases ih p hp hkept with ⟨path, ancestor, hclimb⟩ | ⟨out, hout⟩
        · exact Or.inl ⟨p :: path, ancestor, .removed hlt hkept hclimb⟩
        · exact Or.inr ⟨out, leadsOut_iff.2 ⟨p, hp, Or.inr ⟨hlt, hkept, hout⟩⟩⟩
      · exact Or.inr ⟨p, leadsOut_iff.2 ⟨p, hp, Or.inl ⟨hout, rfl⟩⟩⟩

namespace LeadsOut

/-- The parent outside the array that a slot leads out to is above the slot. -/
theorem atOrAbove (h : forest.LeadsOut k out) : forest.wayUp.AtOrAbove out k := by
  obtain ⟨-, path, hstretch, -⟩ := h
  exact hstretch.atOrAbove

/-- A slot leads out to one parent only, since there is one way up and it ends
there. -/
theorem unique (h : forest.LeadsOut k out) (h' : forest.LeadsOut k out') : out = out' :=
  (h.atOrAbove.of_end (parent?_of_size_le h.1) h'.atOrAbove).eq_of_up_none
    (parent?_of_size_le h'.1)

/-- Where a slot leads out, some slot has a parent that is not in the array. -/
theorem exists_parent (h : forest.LeadsOut k out) : ∃ j, forest.parent? j = some out := by
  obtain ⟨-, path, hstretch, -⟩ := h
  obtain ⟨j, hj, -⟩ := WayUp.above_iff_exists_down.1 (hstretch.between List.mem_cons_self).2
  exact ⟨j, hj⟩

/-- A climb that leads out does not end. The removed nodes on the way are the
same, and behind them is a node that stays or the top level, or else a slot
outside the array. -/
theorem not_climb (h : forest.LeadsOut k out) :
    ¬ forest.Climb (forest.parent? k) path ancestor := by
  intro hclimb
  generalize hstart : forest.parent? k = start at hclimb
  -- The climb and the way out go over the same parents, up to the end of one of them.
  induction hclimb generalizing k with
  | top =>
    obtain ⟨p, hp, -⟩ := leadsOut_iff.1 h
    rw [hstart] at hp
    cases hp
  | @kept id hkept =>
    obtain ⟨p, hp, hcases⟩ := leadsOut_iff.1 h
    rw [hstart] at hp
    cases hp
    rcases hcases with ⟨hout, -⟩ | ⟨-, hgone, -⟩
    · exact Nat.not_lt_of_le hout (lt_size_of_keptAt hkept)
    · simp [hkept] at hgone
  | @removed id path ancestor hid _ _ ih =>
    obtain ⟨p, hp, hcases⟩ := leadsOut_iff.1 h
    rw [hstart] at hp
    cases hp
    rcases hcases with ⟨hout, -⟩ | ⟨-, -, hrest⟩
    · exact Nat.not_lt_of_le hout hid
    · exact ih hrest rfl

end LeadsOut

end Forest

namespace Resolution

variable {forest : Forest} {resolution : Resolution} {id out p : NodeId}
  {count : Nat} {start ancestor : Option NodeId} {path : List NodeId}

/-- Every note is made for a removed node from which the climb ends. -/
def Noted (forest : Forest) (resolution : Resolution) : Prop :=
  ∀ (k : NodeId) (ancestor : Option NodeId), resolution.notes[k]?.join = some ancestor →
    k < forest.size ∧ forest.keptAt k = false ∧
      ∃ path, forest.Climb (forest.parent? k) path ancestor

/-- At first there is no note that could be wrong. -/
theorem noted_ofForest (forest : Forest) : Noted forest (ofForest forest) := by
  intro k ancestor hk
  rw [notes_ofForest] at hk
  cases hk

namespace Noted

/-- All nodes on the way of a climb that ends can be noted: from each of them
the climb ends as well, and at the same node. -/
theorem noteAll (h : Noted forest resolution) (ids : List NodeId)
    (hclimb : forest.Climb start path ancestor) (hids : ids ⊆ path) :
    Noted forest (ids.foldl (Resolution.note · ancestor) resolution) := by
  intro k ancestor' hk
  rw [notes_noteAll] at hk
  split at hk
  · rename_i hmem
    cases hk
    obtain ⟨hlt, hgone, rest, hrest, -⟩ := hclimb.of_mem (hids hmem.1)
    exact ⟨hlt, hgone, rest, hrest⟩
  · exact h k ancestor' hk

/-- A slot that leads out is not noted. -/
theorem eq_none (h : Noted forest resolution) (hout : forest.LeadsOut id out) :
    resolution.notes[id]?.join = none := by
  cases hnote : resolution.notes[id]?.join with
  | none => rfl
  | some ancestor =>
    obtain ⟨-, -, path, hclimb⟩ := h id ancestor hnote
    exact absurd hclimb hout.not_climb

/-- No slot is noted that is not in the array. -/
theorem eq_none_of_size_le (h : Noted forest resolution) (hid : forest.size ≤ id) :
    resolution.notes[id]?.join = none := by
  cases hnote : resolution.notes[id]?.join with
  | none => rfl
  | some ancestor => exact absurd (h id ancestor hnote).1 (Nat.not_lt_of_le hid)

/-- If the climb from a slot ends, it is dealt with, and the notes made for it
are for nodes from which the climb ends. -/
theorem resolve (h : Noted forest resolution) (hresolved : Resolved forest id resolution)
    (hid : id < forest.size) (hclimb : forest.Climb (forest.parent? id) path ancestor) :
    ∃ resolution', resolution.resolve id = .ok resolution' ∧
      Resolved forest (id + 1) resolution' ∧ Noted forest resolution' := by
  obtain ⟨resolution', hok, hresolved'⟩ := hresolved.resolve hid hclimb
  refine ⟨resolution', hok, hresolved', ?_⟩
  rw [hresolved.resolve_eq hid hclimb] at hok
  cases hok
  have hnoted := h.noteAll _ hclimb
    (List.takeWhile_subset fun k => resolution.notes[k]?.join = none)
  cases hkept : forest.keptAt id with
  | false =>
    -- With the slot itself before it, the climb is one that starts there.
    exact hnoted.noteAll [id] (.removed hid hkept hclimb) (by simp)
  | true => exact hnoted

/-- A climb over removed nodes to a parent that is not in the array gives up
there. No note stops it before, because all nodes on the way lead out. -/
theorem climbWithin_eq_error (h : Noted forest resolution)
    (hresolved : Resolved forest count resolution) (hstretch : forest.wayUp.Stretch p path out)
    (hpath : ∀ a ∈ path, forest.keptAt a = false) (hout : forest.size ≤ out) (fuel : Nat)
    (hfuel : path.length < fuel) (found : Array NodeId) :
    resolution.climbWithin fuel (some p) found = .error (.indexOutOfBounds forest.size out) := by
  induction hstretch generalizing fuel found with
  | nil out =>
    cases fuel with
    | zero => simp at hfuel
    | succ fuel =>
      have hnone : resolution.forest[out]? = none :=
        Array.getElem?_eq_none (hresolved.size_eq ▸ hout)
      simp [climbWithin, h.eq_none_of_size_le hout, Forest.fetch, hnone, hresolved.size_eq]
  | @cons k p out path hp hrest ih =>
    cases fuel with
    | zero => simp at hfuel
    | succ fuel =>
      obtain ⟨hgone, hpath'⟩ := List.forall_mem_cons.1 hpath
      obtain ⟨node, hfetch, hremoved, hsame⟩ := hresolved.fetch_eq (Forest.lt_size_of_parent hp)
      have hparent : node.parent = some p :=
        (Forest.parent?_eq (hsame (Or.inl hgone))).symm.trans hp
      -- From here the climb leads out, so there is no note to take.
      have hnone := h.eq_none ⟨hout, path, .cons hp hrest, hpath'⟩
      simp [climbWithin, hnone, hfetch, hremoved, hgone, hparent,
        ih hpath' hout fuel (Nat.lt_of_succ_lt_succ hfuel)]

/-- If the climb from a slot leads out, dealing with the slot gives up, and
names the parent that the climb has come to. -/
theorem resolve_eq_error (h : Noted forest resolution) (hresolved : Resolved forest id resolution)
    (hid : id < forest.size) (hout : forest.LeadsOut id out) :
    resolution.resolve id = .error (.indexOutOfBounds forest.size out) := by
  obtain ⟨node, hfetch, -, hsame⟩ := hresolved.fetch_eq hid
  have hparent := Forest.parent?_eq (hsame (Or.inr (Nat.le_refl id)))
  obtain ⟨hle, path, hstretch, hpath⟩ := hout
  have hlength : (id :: path).length ≤ forest.size := by
    refine Forest.length_le_size (hstretch.nodup_of_end (Forest.parent?_of_size_le hle)) ?_
    intro k hk
    exact Forest.lt_size_of_above (hstretch.between hk).2
  cases hstretch with
  | cons hp hrest =>
    rw [Resolution.resolve, hfetch, except_ok_bind, climb, ← hparent]
    rw [show forest.parent? id = some _ from hp]
    rw [h.climbWithin_eq_error hresolved hrest hpath hle _
      (by rw [hresolved.size_eq]; exact Nat.lt_succ_of_lt hlength)]
    rfl

end Noted

/-- The slots below `count` have been dealt with, since no climb from there leads
out. -/
structure Inward (forest : Forest) (count : Nat) (resolution : Resolution) : Prop where
  resolved : Resolved forest count resolution
  noted : Noted forest resolution
  not_leadsOut : ∀ k < count, ∀ out, ¬ forest.LeadsOut k out

/-- At first no slot has been dealt with. -/
theorem inward_ofForest (forest : Forest) : Inward forest 0 (ofForest forest) where
  resolved := resolved_ofForest forest
  noted := noted_ofForest forest
  not_leadsOut k hk := absurd hk (Nat.not_lt_zero k)

/-- One more slot is dealt with, or the climb from there leads out and none from
below does. -/
theorem Inward.step (h : Inward forest id resolution) (hcycle : forest.NoRemovedCycle)
    (hid : id < forest.size) :
    (∃ resolution', resolution.resolve id = .ok resolution' ∧
        Inward forest (id + 1) resolution') ∨
      ∃ fault, resolution.resolve id = .error fault ∧
        ∃ s out, s < forest.size ∧ (∀ k < s, ∀ out, ¬ forest.LeadsOut k out) ∧
          forest.LeadsOut s out ∧ fault = .indexOutOfBounds forest.size out := by
  rcases hcycle.climb_or_leadsOut id with ⟨path, ancestor, hclimb⟩ | ⟨out, hout⟩
  · obtain ⟨resolution', hok, hresolved, hnoted⟩ := h.noted.resolve h.resolved hid hclimb
    refine Or.inl ⟨resolution', hok, hresolved, hnoted, ?_⟩
    exact Nat.forall_lt_succ_right.2 ⟨h.not_leadsOut, fun out hout => hout.not_climb hclimb⟩
  · exact Or.inr ⟨_, h.noted.resolve_eq_error h.resolved hid hout, id, out, hid, h.not_leadsOut,
      hout, rfl⟩

/-- All slots are dealt with, or else the climbs from the slots below some slot
end, and the climb from that slot leads out. The fault is that of the lowest
slot, as the slots are dealt with in order. -/
theorem resolved_cases (hcycle : forest.NoRemovedCycle) :
    (∃ resolution, resolved forest forest.size = .ok resolution ∧
        ∀ k < forest.size, ∀ out, ¬ forest.LeadsOut k out) ∨
      ∃ s out, s < forest.size ∧ (∀ k < s, ∀ out, ¬ forest.LeadsOut k out) ∧
        forest.LeadsOut s out ∧
        resolved forest forest.size = .error (.indexOutOfBounds forest.size out) := by
  rcases foldlM_range_cases resolve (ofForest forest) forest.size (Inward forest) _
    (inward_ofForest forest) (fun k resolution hk h => h.step hcycle hk) with
    ⟨resolution, hok, h⟩ | ⟨_, herror, s, out, hs, hbefore, hout, rfl⟩
  · exact Or.inl ⟨resolution, hok, h.not_leadsOut⟩
  · exact Or.inr ⟨s, out, hs, hbefore, hout, herror⟩

end Resolution

namespace Forest

variable {forest : Forest} {fault : Fault}

/-- Compaction gives up if some slot leads out, and it names the parent that the
lowest such slot leads out to. It gives up for nothing else. -/
theorem compact_eq_error_iff (hcycle : forest.NoRemovedCycle) :
    forest.compact = .error fault ↔
      ∃ s out, IsLeast {k | ∃ out, forest.LeadsOut k out} s ∧ forest.LeadsOut s out ∧
        fault = .indexOutOfBounds forest.size out := by
  rw [compact]
  rcases Resolution.resolved_cases hcycle with
    ⟨resolution, hok, hnone⟩ | ⟨s, out, hs, hbefore, hout, herror⟩
  · rw [hok, except_ok_bind]
    refine iff_of_false (by rintro ⟨⟩) ?_
    rintro ⟨s, out, -, hout, -⟩
    -- A slot that leads out has a parent, so it is one of those that were dealt with.
    obtain ⟨p, hp, -⟩ := leadsOut_iff.1 hout
    exact hnone s (lt_size_of_parent hp) out hout
  · rw [herror, except_error_bind]
    have hleast : IsLeast {k | ∃ out, forest.LeadsOut k out} s := by
      refine ⟨⟨out, hout⟩, ?_⟩
      rintro k ⟨out, hk⟩
      exact Nat.le_of_not_lt fun hlt => hbefore k hlt out hk
    constructor
    · rintro ⟨⟩
      exact ⟨s, out, hleast, hout, rfl⟩
    · rintro ⟨s', out', hleast', hout', rfl⟩
      cases hleast.unique hleast'
      rw [hout.unique hout']

/-- Some slot leads out, and one of these is the lowest, exactly if some parent
is not in the array. The slot with such a parent leads out itself. -/
theorem exists_isLeast_leadsOut_iff :
    (∃ s, IsLeast {k | ∃ out, forest.LeadsOut k out} s) ↔
      ∃ k p, forest.parent? k = some p ∧ forest.size ≤ p := by
  constructor
  · rintro ⟨s, ⟨out, hout⟩, -⟩
    obtain ⟨j, hj⟩ := hout.exists_parent
    exact ⟨j, out, hj, hout.1⟩
  · rintro ⟨k, p, hp, hle⟩
    have hne : {k | ∃ out, forest.LeadsOut k out}.Nonempty :=
      ⟨k, p, leadsOut_iff.2 ⟨p, hp, Or.inl ⟨hle, rfl⟩⟩⟩
    obtain ⟨s, hs, hleast⟩ := wellFounded_lt.has_min _ hne
    exact ⟨s, hs, fun j hj => Nat.le_of_not_lt (hleast j hj)⟩

end Forest

end ParseForest
