import ParseForest.Proofs.Packing

/-!
# `ParseForest.Proofs.Packing.Lineage`: who lies above whom in what is packed

Adoption moves a node only under a sibling, so nothing that was above a node
gets lost. What is new above a node are collecting nodes: `Forest.ComesAbove`
says of which siblings such a node must come behind.
`Forest.above_adoptedParent_iff` is the whole change, for any set of slots whose
children went through adoption.

* Up from a node, the siblings that took each other in come one after another,
  and their parent is behind the last of them
  (`Forest.above_adoptedParent_of_parent`,
  `Forest.above_adoptedParent_of_collects`).
* A link of the way up after adoption is a link of the way up before, or leads
  to a sibling (`Forest.adoptedParent_cases`), from which nothing is above that
  was not above the node.

Compaction changes nothing of this among the nodes that stay, and
`Forest.pack_above_iff` puts the two together.
-/

set_option autoImplicit false

namespace ParseForest.Forest

variable {forest : Forest} {visited : NodeId → Bool} {top : Nat} {a c k p : NodeId}

/-- A collecting slot whose parent was visited comes behind a sibling at or
above the slot `k`. -/
def ComesAbove (forest : Forest) (visited : NodeId → Bool) (c k : NodeId) : Prop :=
  forest.collectsAt c = true ∧
    ∃ p, forest.parent? c = some p ∧ visited p = true ∧
      ∃ z < c, forest.parent? z = some p ∧ forest.wayUp.AtOrAbove z k

/-! ### Adoption -/

/-- A slot stays below its parent, be it by way of siblings. The induction is on how many slots
come behind it, which are fewer behind each sibling that takes one in. -/
theorem above_adoptedParent_of_parent (hp : forest.parent? k = some p) :
    (forest.adoptedParent visited).Above p k := by
  -- From sibling to sibling there are fewer slots left behind.
  induction hn : forest.size - k using Nat.strongRecOn generalizing k with
  | ind n ih =>
    cases hv : visited p with
    | false => exact WayUp.above_of_up (adoptedParent_of_not_visited hp hv)
    | true =>
      have hup := adoptedParent_of_visited hp hv
      cases hc : forest.collectorAmong? (forest.family (some p)) k with
      | none =>
        rw [hc] at hup
        exact WayUp.above_of_up hup
      | some c =>
        obtain ⟨⟨hkc, hcp, -⟩, -⟩ := collectorAmong?_family_eq_some_iff.1 hc
        rw [hc] at hup
        have hfewer : forest.size - c < n := by
          rw [← hn]
          exact Nat.sub_lt_sub_left (lt_size_of_parent hp) hkc
        exact (ih _ hfewer hcp rfl).trans (WayUp.above_of_up hup)

/-- A slot whose parent was visited comes to lie below every collecting sibling
behind it: the nearest takes it in, and is itself before the others. -/
theorem above_adoptedParent_of_collects (hkp : forest.parent? k = some p)
    (hcp : forest.parent? c = some p) (hv : visited p = true)
    (hcollects : forest.collectsAt c = true) (hkc : k < c) :
    (forest.adoptedParent visited).Above c k := by
  induction hn : c - k using Nat.strongRecOn generalizing k with
  | ind n ih =>
    have hup := adoptedParent_of_visited hkp hv
    cases hd : forest.collectorAmong? (forest.family (some p)) k with
    | none =>
      have hplain := collectorAmong?_family_eq_none_iff.1 hd c hkc hcp
      rw [hcollects] at hplain
      cases hplain
    | some d =>
      obtain ⟨⟨hkd, hdp, -⟩, hbefore⟩ := collectorAmong?_family_eq_some_iff.1 hd
      rw [hd] at hup
      rcases Nat.lt_trichotomy d c with hlt | rfl | hlt
      · -- It is taken in by a sibling before this one, from which there are fewer slots
        -- to go.
        have hnearer : c - d < n := by
          rw [← hn]
          exact Nat.sub_lt_sub_left hkc hkd
        exact (ih _ hnearer hdp hlt rfl).trans (WayUp.above_of_up hup)
      · exact WayUp.above_of_up hup
      · -- The first collecting sibling cannot be behind this one.
        have hplain := hbefore c hlt hkc hcp
        rw [hcollects] at hplain
        cases hplain

/-- One link further down, the same is above a slot after adoption as was
before, and what comes above it. It is the step of the induction in
`Forest.above_adoptedParent_iff`. -/
theorem above_or_comesAbove_of_link {q : NodeId} (hlink : forest.adoptedParent visited k = some q)
    (h : a = q ∨ forest.wayUp.Above a q ∨ forest.ComesAbove visited a q) :
    forest.wayUp.Above a k ∨ forest.ComesAbove visited a k := by
  rcases adoptedParent_cases hlink with hq | ⟨p, hp, hqp, hv, hcollects, hlt⟩
  · have hqk := WayUp.above_of_up hq
    rcases h with rfl | habove | ⟨ha, p, hap, hv, z, hz, hzp, hzq⟩
    · exact Or.inl hqk
    · exact Or.inl (habove.trans hqk)
    · exact Or.inr ⟨ha, p, hap, hv, z, hz, hzp, hqk.atOrAbove.trans hzq⟩
  · -- The same is above `k` and above its sibling `q`.
    have hsame : ∀ {b}, forest.wayUp.Above b q → forest.wayUp.Above b k := fun hb =>
      (WayUp.above_iff_of_up hp).2 ((WayUp.above_iff_of_up hqp).1 hb)
    rcases h with rfl | habove | ⟨ha, r, har, hrv, z, hz, hzr, hzq⟩
    · exact Or.inr ⟨hcollects, p, hqp, hv, k, hlt, hp, WayUp.AtOrAbove.refl k⟩
    · exact Or.inl (hsame habove)
    · rcases WayUp.atOrAbove_iff.1 hzq with rfl | hzq
      · obtain rfl : r = p := Option.some.inj (hzr.symm.trans hqp)
        exact Or.inr ⟨ha, r, har, hrv, k, Nat.lt_trans hlt hz, hp, WayUp.AtOrAbove.refl k⟩
      · exact Or.inr ⟨ha, r, har, hrv, z, hz, hzr, (hsame hzq).atOrAbove⟩

/-- Above a slot after adoption is what was above it before, and what comes
above it. This holds of any array and any set of visited slots, with cycles or
without. -/
theorem above_adoptedParent_iff :
    (forest.adoptedParent visited).Above a k ↔
      forest.wayUp.Above a k ∨ forest.ComesAbove visited a k := by
  have hkept : ∀ {b j}, forest.wayUp.Above b j → (forest.adoptedParent visited).Above b j :=
    fun hb => hb.of_links fun _ _ => above_adoptedParent_of_parent
  constructor
  · intro h
    induction h using Relation.TransGen.head_induction_on with
    | single hlink => exact above_or_comesAbove_of_link hlink (Or.inl rfl)
    | head hlink _ ih => exact above_or_comesAbove_of_link hlink (Or.inr ih)
  · rintro (habove | ⟨ha, p, hap, hv, z, hz, hzp, hzk⟩)
    · exact hkept habove
    · have haz := above_adoptedParent_of_collects hzp hap hv ha hz
      rcases WayUp.atOrAbove_iff.1 hzk with rfl | hzk
      · exact haz
      · exact haz.trans (hkept hzk)

/-! ### Packing -/

/-- Of two nodes that stay, one is above the other in the packed tree exactly if
it was before, or comes above it when the children of the walked slots go
through adoption. -/
theorem above_packed_iff (h : forest.IsTree) (ha : forest.keptAt a = true)
    (hk : forest.keptAt k = true) :
    forest.packed.wayUp.Above (forest.newSlot a) (forest.newSlot k) ↔
      forest.wayUp.Above a k ∨ forest.ComesAbove forest.walked a k := by
  rw [wayUp_packed, forest.underNearest_packedNode.above_iff (forest.adoptedParent_within _)
    (adoptedParent_acyclic h.acyclic _) ha hk, above_adoptedParent_iff]

/-- In what is packed, a node is above another one exactly if it was so in the
array, or it collects, its parent is walked, and a sibling before it is that
other node or above it. What was above a node is never below it. -/
theorem pack_above_iff {out : Forest} {events : Array Event}
    (h : forest.pack top = .ok ⟨.ok out, events⟩) {x y : NodeId}
    (hx : (forest.used top).keptAt x = true) (hy : (forest.used top).keptAt y = true) :
    (out.wayUp.Above ((forest.used top).newSlot x) ((forest.used top).newSlot y) ↔
      (forest.used top).wayUp.Above x y ∨
        (forest.used top).collectsAt x = true ∧
          ∃ p, (forest.used top).parent? x = some p ∧ (forest.used top).Walked p ∧
            ∃ z < x, (forest.used top).parent? z = some p ∧
              (forest.used top).wayUp.AtOrAbove z y) ∧
      ((forest.used top).wayUp.Above x y →
        out.wayUp.Above ((forest.used top).newSlot x) ((forest.used top).newSlot y) ∧
          ¬ out.wayUp.Above ((forest.used top).newSlot y) ((forest.used top).newSlot x)) := by
  obtain ⟨htree, rfl⟩ := pack_eq_ok h
  have habove := above_packed_iff htree hx hy
  constructor
  · rw [habove]
    simp only [ComesAbove, walked, decide_eq_true_eq]
  · intro hxy
    have hout := habove.2 (Or.inl hxy)
    refine ⟨hout, fun hback => ?_⟩
    -- If each of the two were above the other, the packed tree would have a cycle.
    have hacyclic := (keptWhere_packedNode_wayUp htree).2
    rw [wayUp_packed] at hout hback
    exact hacyclic _ (hout.trans hback)

/-- The hypotheses hold of `crossed`. The second collecting node comes above the
node below the removed one, which it was not above before. -/
theorem pack_above_iff_crossed :
    ∃ events, crossed.pack 6 = .ok ⟨.ok (crossed.used 6).packed, events⟩ ∧
      (crossed.used 6).keptAt 5 = true ∧ (crossed.used 6).keptAt 1 = true ∧
      ¬ (crossed.used 6).wayUp.Above 5 1 ∧ (crossed.used 6).packed.wayUp.Above 3 0 := by
  have hpack : crossed.pack 6 = .ok ⟨.ok (crossed.used 6).packed,
      #[.absorbed 3 1 0, .absorbed 5 2 0, .packed 6 4]⟩ := by decide +kernel
  have hx : (crossed.used 6).keptAt 5 = true := by decide
  have hy : (crossed.used 6).keptAt 1 = true := by decide
  refine ⟨_, hpack, hx, hy, by decide, (pack_above_iff hpack hx hy).1.2 (Or.inr ?_)⟩
  exact ⟨by decide, 0, by decide, by decide, 4, by decide, by decide,
    (WayUp.above_of_up (by decide)).atOrAbove⟩

end ParseForest.Forest
