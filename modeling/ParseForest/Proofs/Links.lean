import ParseForest.Links
import ParseForest.Proofs.Family

/-!
# `ParseForest.Proofs.Links`: one run over the array finds every link

`Forest.linked` goes from the last slot to the first and remembers the lowest
slot seen so far of every family. `Links.SeenFrom` is what it knows when the
slots from some slot on were seen: for each of them the next sibling, and of
every family the first member among them. `Links.SeenFrom.see` takes in one more
slot.

`Forest.linked_eq_familyLinked` and `Forest.relink_eq` say what comes of it: the
links that the parents imply, if all parents are in the array, and a fault
otherwise.
-/

set_option autoImplicit false

namespace ParseForest

variable {forest : Forest} {links : Links} {bound id : Nat}

namespace Links

/-- The slots from `bound` on were seen. -/
structure SeenFrom (forest : Forest) (bound : Nat) (links : Links) : Prop where
  next_size : links.next.size = forest.size
  child_size : links.child.size = forest.size
  next_eq : ∀ k, bound ≤ k → k < forest.size → links.next[k]? = some (forest.nextSibling? k)
  child_eq : ∀ p, p < forest.size →
    links.child[p]? = some ((forest.family (some p)).find? fun c => bound ≤ c)
  top_eq : links.top = (forest.family none).find? fun c => bound ≤ c

/-- Before the first slot is seen, nothing is known of any family: no slot is
behind the last one. -/
theorem unseen_seenFrom (forest : Forest) : SeenFrom forest forest.size (unseen forest.size) := by
  have hnone : ∀ parent, (forest.family parent).find? (fun c => forest.size ≤ c) = none := by
    intro parent
    rw [List.find?_eq_none]
    intro c hc
    simpa using (Forest.mem_family.1 hc).1
  refine ⟨by simp [unseen], by simp [unseen], fun k hle hlt => ?_, fun p hp => ?_, ?_⟩
  · exact absurd hlt (Nat.not_lt_of_le hle)
  · rw [hnone]
    simp [unseen, hp]
  · rw [hnone]
    rfl

/-- The slot below those seen is taken in: its next sibling is the first of its
family seen so far, and from now on it is the first itself. -/
theorem SeenFrom.see (h : SeenFrom forest (id + 1) links) (hid : id < forest.size)
    (hclosed : forest.Closed) :
    SeenFrom forest id (links.see id (forest.parent? id)) := by
  obtain ⟨hnextSize, hchildSize, hnext, hchild, htop⟩ := h
  obtain ⟨next, child, top⟩ := links
  -- The members of a family seen now, in terms of those seen before.
  have hfamily := Forest.find?_family_from hid
  -- In either case the next siblings known are those known before and one more.
  have hnext' : ∀ sibling k, forest.nextSibling? id = sibling → id ≤ k → k < forest.size →
      (next.setIfInBounds id sibling)[k]? = some (forest.nextSibling? k) := by
    intro sibling k hsibling hle hlt
    rw [Array.getElem?_setIfInBounds]
    by_cases hk : id = k
    · subst hk
      simp_all
    · rw [if_neg hk]
      exact hnext k (Nat.lt_of_le_of_ne hle hk) hlt
  cases hparent : forest.parent? id with
  | none =>
    refine ⟨by simpa [Links.see] using hnextSize, hchildSize, ?_, fun p hp => ?_, ?_⟩
    · refine fun k => hnext' top k ?_
      rw [Forest.nextSibling?, hparent]
      exact htop.symm
    · rw [hfamily, hparent, if_neg (by simp)]
      exact hchild p hp
    · rw [hfamily, hparent, if_pos rfl]
      rfl
  | some p =>
    have hp := hclosed id p hparent
    have hbehind : child[p]?.join = forest.nextSibling? id := by
      rw [hchild p hp, Forest.nextSibling?, hparent]
      rfl
    refine ⟨by simpa [Links.see] using hnextSize, by simpa [Links.see] using hchildSize, ?_,
      fun q hq => ?_, ?_⟩
    · exact fun k => hnext' child[p]?.join k hbehind.symm
    · rw [hfamily, hparent]
      simp only [Links.see, Array.getElem?_setIfInBounds, Option.some.injEq]
      by_cases hpq : p = q
      · have hlt : p < child.size := hchildSize ▸ hp
        simp [hpq, hpq ▸ hlt]
      · simp only [if_neg hpq]
        exact hchild q hq
    · rw [hfamily, hparent, if_neg (by simp)]
      exact htop

/-- Going down to the first slot sees all slots. The induction is on how many
are left to see. -/
theorem SeenFrom.seeBelow (hclosed : forest.Closed)
    (h : SeenFrom forest bound links) (hbound : bound ≤ forest.size) :
    SeenFrom forest 0 (seeBelow forest bound links) := by
  induction bound generalizing links with
  | zero => exact h
  | succ id ih => exact ih (h.see hbound hclosed) (Nat.le_of_succ_le hbound)

end Links

namespace Forest

/-- If all parents are in the array, the links found are those that the parents
imply. A parent outside it would have no place in the table of first children,
and its children would find no sibling there. -/
theorem linked_eq_familyLinked (hclosed : forest.Closed) :
    forest.linked = forest.familyLinked := by
  have hseen : Links.SeenFrom forest 0 (Links.ofForest forest) :=
    (Links.unseen_seenFrom forest).seeBelow hclosed (Nat.le_refl _)
  have hhead : ∀ k, (forest.family (some k)).find? (fun c => 0 ≤ c) = forest.firstChild? k := by
    intro k
    rw [firstChild?]
    cases forest.family (some k) <;> simp
  refine Array.ext_getElem? fun k => ?_
  rw [linked, getElem?_familyLinked, Array.getElem?_mapIdx]
  by_cases hk : k < forest.size
  · rw [hseen.child_eq k hk, hseen.next_eq k (Nat.zero_le k) hk, hhead]
    rfl
  · rw [Array.getElem?_eq_none (Nat.le_of_not_lt hk)]
    rfl

/-- No parent is reported outside the array exactly when all are in it. -/
theorem parentOutside?_eq_none_iff :
    forest.parentOutside? = none ↔ forest.Closed := by
  rw [parentOutside?, Array.findSome?_eq_none_iff]
  constructor
  · intro h k p hp
    have hk := lt_size_of_parent hp
    simp only [parent?, Array.getElem?_eq_getElem hk, Option.bind_some] at hp
    have := h forest[k] (Array.getElem_mem hk)
    simpa [hp] using this
  · intro h node hnode
    obtain ⟨k, hk, rfl⟩ := Array.getElem_of_mem hnode
    have hparent : forest.parent? k = forest[k].parent := by
      simp [parent?, Array.getElem?_eq_getElem hk]
    cases hp : forest[k].parent with
    | none => rfl
    | some p => simpa using h k p (hparent.trans hp)

/-- Linking an array that holds all parents sets the links that they imply.
Every pass that links is taken from here on by way of `Forest.familyLinked`. -/
theorem relink_eq (hclosed : forest.Closed) :
    forest.relink = .ok forest.familyLinked := by
  rw [relink, parentOutside?_eq_none_iff.2 hclosed, ← linked_eq_familyLinked hclosed]

/-- Linking succeeds for arrays that hold all parents and for no others, and
leaves nothing but the links that these imply. -/
theorem relink_eq_ok_iff {linked : Forest} :
    forest.relink = .ok linked ↔ forest.Closed ∧ linked = forest.familyLinked := by
  constructor
  · intro h
    have hclosed : forest.Closed := by
      rw [← parentOutside?_eq_none_iff]
      cases hfound : forest.parentOutside? with
      | none => rfl
      | some p => simp [relink, hfound] at h
    rw [relink_eq hclosed, Except.ok.injEq] at h
    exact ⟨hclosed, h.symm⟩
  · rintro ⟨hclosed, rfl⟩
    exact relink_eq hclosed

end Forest

end ParseForest
