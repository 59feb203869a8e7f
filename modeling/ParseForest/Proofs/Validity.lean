import ParseForest.Proofs.Validity.Rooted
import ParseForest.Validity

/-!
# `ParseForest.Proofs.Validity`: which arrays can be packed

`Forest.check` asks three questions of an array. For each of them there is
a theorem that says what the array is like when the answer is good and which
slot is to blame when it is not: `Forest.parentsPresent_cases`,
`Forest.chainsRooted_cases` (in `Validity/Rooted.lean`) and
`Forest.collectorsFollow_cases` (by one step after another of
`Forest.Followed`). `Forest.check_cases` puts them together. By
`Forest.check_eq_ok_iff` an array is accepted if it is a tree in which no
collecting node is the first child of its parent.

`Forest.inspect_accepts_iff` spells that out slot by slot.
-/

set_option autoImplicit false

namespace ParseForest.Forest

variable {forest : Forest} {seen : Array Bool} {k c : NodeId}

/-! ### Parents -/

/-- The parents of all nodes are in the array, or the answer names the lowest
slot with one that is not. -/
theorem parentsPresent_cases (forest : Forest) :
    (forest.parentsPresent = .ok () ∧ forest.Closed) ∨
      ∃ k p, (∀ j q, j < k → forest.parent? j = some q → q < forest.size) ∧
        forest.parent? k = some p ∧ forest.size ≤ p ∧
        forest.parentsPresent = .error (.parentOutside k p) := by
  have hgood : ∀ k, forest.parentPresent k = .ok () →
      ∀ p, forest.parent? k = some p → p < forest.size := by
    intro k hk p hp
    simp only [parentPresent, hp] at hk
    split at hk
    · assumption
    · cases hk
  rcases forM_range_cases forest.parentPresent forest.size with
    ⟨hok, hall⟩ | ⟨k, rejection, -, hbefore, hk, herror⟩
  · exact Or.inl ⟨hok, fun k p hp => hgood k (hall k (lt_size_of_parent hp)) p hp⟩
  · refine Or.inr ?_
    cases hp : forest.parent? k with
    | none =>
      simp only [parentPresent, hp] at hk
      cases hk
    | some p =>
      simp only [parentPresent, hp] at hk
      split at hk
      · cases hk
      · rename_i hlt
        cases hk
        exact ⟨k, p, fun j q hj => hgood j (hbefore j hj) q, hp, Nat.le_of_not_lt hlt, herror⟩

/-! ### Collecting nodes -/

/-- A node is to take in the siblings before it, and it is the first child of
its parent. -/
def CollectsFirst (forest : Forest) (c : NodeId) : Prop :=
  forest.collectsAt c ∧ ∃ p, forest.parent? c = some p ∧ ∀ d < c, forest.parent? d ≠ some p

/-- The parents of the first `count` slots were seen, and no others. -/
structure Seen (forest : Forest) (count : Nat) (seen : Array Bool) : Prop where
  size_eq : seen.size = forest.size
  seen_iff : ∀ p : NodeId, seen[p]? = some true ↔ ∃ d, d < count ∧ forest.parent? d = some p

/-- A parent that was not seen yet is not the parent of a slot before. This is
how the loop tells a first child without looking at links, which may be
stale. -/
theorem Seen.eq_false_iff (h : Seen forest k seen) {p : NodeId} (hp : p < forest.size) :
    seen[p]? = some false ↔ ∀ d < k, forest.parent? d ≠ some p := by
  have hlt : p < seen.size := h.size_eq ▸ hp
  have hnot : seen[p]? = some false ↔ ¬ seen[p]? = some true := by
    rw [Array.getElem?_eq_getElem hlt]
    cases seen[p] <;> simp
  rw [hnot, h.seen_iff]
  constructor
  · exact fun hno d hd hdp => hno ⟨d, hd, hdp⟩
  · rintro hall ⟨d, hd, hdp⟩
    exact hall d hd hdp

/-- A slot without a parent adds nothing to the parents seen. -/
theorem Seen.skip (h : Seen forest k seen) (hnone : forest.parent? k = none) :
    Seen forest (k + 1) seen := by
  refine ⟨h.size_eq, fun p => ?_⟩
  rw [h.seen_iff, Nat.exists_lt_succ_right, hnone]
  simp

/-- The parent of a slot is put with the parents seen. It is in the array, so it
has its place there. -/
theorem Seen.put (h : Seen forest k seen) {p : NodeId} (hp : forest.parent? k = some p)
    (hlt : p < forest.size) : Seen forest (k + 1) (seen.setIfInBounds p true) := by
  refine ⟨by rw [Array.size_setIfInBounds, h.size_eq], fun q => ?_⟩
  have hlt' : p < seen.size := h.size_eq ▸ hlt
  rw [Array.getElem?_setIfInBounds, Nat.exists_lt_succ_right, hp]
  by_cases hpq : p = q
  · simp [hpq, hpq ▸ hlt']
  · simp [hpq, h.seen_iff]

/-- One slot: either it is no collecting first child, and its parent counts as
seen from now on, or it is to blame. -/
theorem Seen.collectorFollows_cases (hclosed : forest.Closed)
    (h : Seen forest k seen) (hk : k < forest.size) :
    (∃ seen', forest.collectorFollows seen k = .ok seen' ∧ Seen forest (k + 1) seen' ∧
        ¬ forest.CollectsFirst k) ∨
      (forest.collectorFollows seen k = .error (.nothingBefore k) ∧ forest.CollectsFirst k) := by
  have hnode : forest[k]? = some forest[k] := Array.getElem?_eq_getElem hk
  have hparent : forest.parent? k = forest[k].parent := by simp [parent?, hnode]
  have hcollects : forest.collectsAt k = forest[k].collects := by simp [collectsAt, hnode]
  cases hp : forest[k].parent with
  | none =>
    rw [hp] at hparent
    refine Or.inl ⟨seen, by simp [collectorFollows, hnode, hp], h.skip hparent, ?_⟩
    rintro ⟨-, p, hp', -⟩
    rw [hparent] at hp'
    cases hp'
  | some p =>
    rw [hp] at hparent
    have hlt := hclosed k p hparent
    -- The parent was not seen yet exactly if no slot before has it.
    have hfirst : forest.CollectsFirst k ↔ forest[k].collects ∧ seen[p]? = some false := by
      rw [h.eq_false_iff hlt, CollectsFirst, hcollects, hparent]
      simp
    by_cases hblame : forest[k].collects ∧ seen[p]? = some false
    · exact Or.inr ⟨by simp [collectorFollows, hnode, hp, hblame], hfirst.2 hblame⟩
    · refine Or.inl ⟨seen.setIfInBounds p true, ?_, h.put hparent hlt, fun hc => ?_⟩
      · simp only [collectorFollows, hnode, hp, hblame, if_false]
      · exact hblame (hfirst.1 hc)

/-- The slots below `count` were gone through, and no collecting node there is a
first child. -/
structure Followed (forest : Forest) (count : Nat) (seen : Array Bool) : Prop where
  seen : Seen forest count seen
  not_first : ∀ c < count, ¬ forest.CollectsFirst c

/-- Before the first slot no parent was seen. -/
theorem followed_zero (forest : Forest) :
    Followed forest 0 (Array.replicate forest.size false) where
  seen := ⟨by simp, fun p => by simp [Array.getElem?_replicate]⟩
  not_first c hc := absurd hc (Nat.not_lt_zero c)

/-- One more slot is gone through, or it is to blame and no slot before it
is. -/
theorem Followed.step (hclosed : forest.Closed) (h : Followed forest k seen)
    (hk : k < forest.size) :
    (∃ seen', forest.collectorFollows seen k = .ok seen' ∧ Followed forest (k + 1) seen') ∨
      ∃ rejection, forest.collectorFollows seen k = .error rejection ∧
        ∃ c, rejection = .nothingBefore c ∧ forest.CollectsFirst c ∧
          ∀ d < c, ¬ forest.CollectsFirst d := by
  rcases h.seen.collectorFollows_cases hclosed hk with ⟨seen', hok, hseen', hgood⟩ |
    ⟨herror, hblame⟩
  · exact Or.inl ⟨seen', hok, hseen', Nat.forall_lt_succ_right.2 ⟨h.not_first, hgood⟩⟩
  · exact Or.inr ⟨_, herror, k, rfl, hblame, h.not_first⟩

/-- No collecting node is the first child of its parent, or the answer names the
lowest one that is. The parents have to be in the array, which the check has
made sure of before. -/
theorem collectorsFollow_cases (hclosed : forest.Closed) :
    (forest.collectorsFollow = .ok () ∧ ∀ c, ¬ forest.CollectsFirst c) ∨
      ∃ c, forest.CollectsFirst c ∧ (∀ d < c, ¬ forest.CollectsFirst d) ∧
        forest.collectorsFollow = .error (.nothingBefore c) := by
  rcases foldlM_range_cases forest.collectorFollows (Array.replicate forest.size false)
    forest.size (Followed forest) _ (followed_zero forest)
    (fun k seen hk h => h.step hclosed hk) with ⟨seen, hok, h⟩ | ⟨_, herror, c, rfl, hblame, hbefore⟩
  · refine Or.inl ⟨by rw [collectorsFollow, hok]; rfl, fun c hc => ?_⟩
    -- A slot outside the array has no parent, and so is no first child.
    obtain ⟨p, hp, -⟩ := hc.2
    exact h.not_first c (lt_size_of_parent hp) hc
  · exact Or.inr ⟨c, hblame, hbefore, by rw [collectorsFollow, herror]; rfl⟩

/-! ### The whole check -/

/-- An array that holds all parents, and in which every way up ends at a root
without a parent, is a tree. In an empty array the first slot has no parent for
want of a node. -/
theorem isTree_of_leadsToRoot (hclosed : forest.Closed)
    (hroot : ∀ k < forest.size, forest.LeadsToRoot k) : forest.IsTree := by
  refine ⟨hclosed, ?_, fun k hk => (hroot k hk).2⟩
  rcases Nat.eq_zero_or_pos forest.size with hsize | hsize
  · simp [parent?, Array.size_eq_zero_iff.1 hsize]
  · exact (hroot NodeId.root hsize).1

/-- The check accepts an array or names what is amiss: a parent outside the
array, or else a way up that does not end at the root, or else a collecting node
that is a first child. Of several slots it names what is amiss with the
lowest. -/
theorem check_cases (forest : Forest) :
    (forest.check = .ok () ∧ forest.IsTree ∧ ∀ c, ¬ forest.CollectsFirst c) ∨
      (∃ k p, (∀ j q, j < k → forest.parent? j = some q → q < forest.size) ∧
        forest.parent? k = some p ∧ forest.size ≤ p ∧
        forest.check = .error (.parentOutside k p)) ∨
      (forest.Closed ∧
        ∃ s rejection, s < forest.size ∧ (∀ r < s, forest.LeadsToRoot r) ∧
          forest.LeadsAstray s rejection ∧ forest.check = .error rejection) ∨
      (forest.IsTree ∧ ∃ c, forest.CollectsFirst c ∧ (∀ d < c, ¬ forest.CollectsFirst d) ∧
        forest.check = .error (.nothingBefore c)) := by
  rw [check]
  rcases forest.parentsPresent_cases with ⟨hok, hclosed⟩ | ⟨k, p, hbefore, hp, hle, herror⟩
  · rw [hok, except_ok_bind]
    rcases chainsRooted_cases hclosed with ⟨hok, hroot⟩ | ⟨s, rejection, hs, hr, hastray, herror⟩
    · rw [hok, except_ok_bind]
      have htree := isTree_of_leadsToRoot hclosed hroot
      rcases collectorsFollow_cases hclosed with ⟨hok, hnone⟩ | ⟨c, hc, hd, herror⟩
      · exact Or.inl ⟨hok, htree, hnone⟩
      · exact Or.inr (Or.inr (Or.inr ⟨htree, c, hc, hd, herror⟩))
    · rw [herror, except_error_bind]
      exact Or.inr (Or.inr (Or.inl ⟨hclosed, s, rejection, hs, hr, hastray, rfl⟩))
  · rw [herror, except_error_bind]
    exact Or.inr (Or.inl ⟨k, p, hbefore, hp, hle, rfl⟩)

/-- Of a tree the check asks nothing but that no collecting node is a first
child, and it names the lowest that is. -/
theorem IsTree.check_cases (h : forest.IsTree) :
    (forest.check = .ok () ∧ ∀ c, ¬ forest.CollectsFirst c) ∨
      ∃ c, forest.CollectsFirst c ∧ (∀ d < c, ¬ forest.CollectsFirst d) ∧
        forest.check = .error (.nothingBefore c) := by
  rcases forest.check_cases with ⟨hok, -, hnone⟩ | ⟨k, p, -, hp, hle, -⟩ |
    ⟨-, s, rejection, hs, -, hastray, -⟩ | ⟨-, hblame⟩
  · exact Or.inl ⟨hok, hnone⟩
  · exact absurd (h.closed k p hp) (Nat.not_lt_of_le hle)
  · exact absurd ⟨h.root_parent, h.root_atOrAbove s hs⟩ hastray.not_leadsToRoot
  · exact Or.inr hblame

/-- An array that can be packed is a tree in which no collecting node is the
first child of its parent. All proofs about packing start from this. -/
theorem check_eq_ok_iff :
    forest.check = .ok () ↔ forest.IsTree ∧ ∀ c, ¬ forest.CollectsFirst c := by
  rcases forest.check_cases with ⟨hok, hgood⟩ | ⟨k, p, -, hp, hle, herror⟩ |
    ⟨-, s, rejection, hs, -, hastray, herror⟩ | ⟨-, c, hc, -, herror⟩
  · exact ⟨fun _ => hgood, fun _ => hok⟩
  · simp only [herror, reduceCtorEq, false_iff]
    exact fun h => Nat.not_lt_of_le hle (h.1.closed k p hp)
  · simp only [herror, reduceCtorEq, false_iff]
    exact fun h => hastray.not_leadsToRoot ⟨h.1.root_parent, h.1.root_atOrAbove s hs⟩
  · simp only [herror, reduceCtorEq, false_iff]
    exact fun h => h.2 c hc

/-- The check takes the array for all there is, so it never says that too many
slots were asked for. That rejection comes from `Forest.pack` itself. -/
theorem check_ne_topBeyondArray (forest : Forest) (top size : Nat) :
    forest.check ≠ .error (.topBeyondArray top size) := by
  intro h
  rcases forest.check_cases with ⟨hok, -⟩ | ⟨k, p, -, -, -, herror⟩ |
    ⟨-, s, rejection, -, -, hastray, herror⟩ | ⟨-, c, -, -, herror⟩
  · rw [h] at hok
    cases hok
  · rw [h] at herror
    cases herror
  · rw [h] at herror
    cases herror
    cases hastray
  · rw [h] at herror
    cases herror

/-- The answer that is told is the answer of the check; what is told beside it
makes no difference to it. -/
theorem inspect_answer (forest : Forest) : forest.inspect.answer = forest.check := by
  rw [inspect]
  split <;> simp [*]

/-- The check accepts an array exactly when it is empty or

* every parent is a slot of the array,
* the first slot has no parent,
* following parents from any slot comes to the first slot, and
* every collecting slot with a parent has a lower slot with the same parent.

A first slot that is flagged as collecting has no parent, so it may be. -/
theorem inspect_accepts_iff (forest : Forest) :
    forest.inspect.answer = .ok () ↔
      forest.isEmpty ∨
        ((∀ k p, forest.parent? k = some p → p < forest.size) ∧
          forest.parent? NodeId.root = none ∧
          (∀ k < forest.size, forest.wayUp.AtOrAbove NodeId.root k) ∧
          ∀ c p, forest.collectsAt c → forest.parent? c = some p →
            ∃ d < c, forest.parent? d = some p) := by
  rw [inspect_answer, check_eq_ok_iff]
  have hfollow : (∀ c, ¬ forest.CollectsFirst c) ↔
      ∀ c p, forest.collectsAt c → forest.parent? c = some p →
        ∃ d < c, forest.parent? d = some p := by
    simp only [CollectsFirst, not_and, not_exists, not_forall, not_not, exists_prop]
    exact ⟨fun h c p hc hp => h c hc p hp, fun h c hc p hp => h c p hc hp⟩
  rw [hfollow]
  constructor
  · exact fun ⟨htree, hsiblings⟩ =>
      Or.inr ⟨htree.closed, htree.root_parent, htree.root_atOrAbove, hsiblings⟩
  · rintro (hempty | ⟨hclosed, hroot, hreach, hsiblings⟩)
    · -- No slot of an empty array has a parent.
      have hnone : ∀ k, forest.parent? k = none := by
        simp [Array.isEmpty_iff.1 hempty, parent?]
      have hsize : forest.size = 0 := by simp [Array.isEmpty_iff.1 hempty]
      refine ⟨⟨fun k p hp => ?_, hnone _, fun k hk => ?_⟩, fun c p _ hp => ?_⟩
      · rw [hnone] at hp
        cases hp
      · omega
      · rw [hnone] at hp
        cases hp
    · exact ⟨⟨hclosed, hroot, hreach⟩, hsiblings⟩

end ParseForest.Forest
