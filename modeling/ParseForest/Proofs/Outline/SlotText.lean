import ParseForest.Proofs.Outline
import ParseForest.Proofs.Walk.Chains

/-!
# `ParseForest.Proofs.Outline.SlotText`: the outline by recursion over the slots

`Forest.slotText` is the text of a slot by recursion over the parents alone: the
name, and in parentheses the texts of the slots under it, from the lowest to the
highest. The recursion ends at every slot that is not above itself, because
fewer slots are below each slot under it (`WayUp.countBelow_lt`). On a cycle
there is nothing to say, and the text is empty.

The trees that links lead to have these texts (`Forest.Grown.texts_eq`, by
induction on the trees), and so the outline of a linked forest is the texts of
the slots at the top level with blanks between them. No slot on a cycle or below
one has any part in it, since nothing on the way up from what is below the top
level is above itself (`Forest.offCycles_of_top`). `Forest.relink_outline` puts
this together.
-/

set_option autoImplicit false

namespace ParseForest.Forest

variable {forest forest' : Forest} {link : Option NodeId} {ids : List NodeId} {grove : Grove NodeId}
  {k t : NodeId}

/-- The text of a slot: its name and, if there are slots under it, their texts
in parentheses. -/
def slotText (forest : Forest) (k : NodeId) : String :=
  if _ : forest.wayUp.Above k k then ""
  else
    forest.nameAt k ++
      if forest.family (some k) = [] then ""
      else
        let texts := (forest.family (some k)).attach.map fun ⟨c, _⟩ => slotText forest c
        "(" ++ " ".intercalate texts ++ ")"
termination_by forest.wayUp.countBelow forest.size k
decreasing_by
  rename_i hself _ hc
  exact WayUp.countBelow_lt forest.wayUp_within hself (mem_family_some.1 hc)

/-- The slot is not on a cycle, and not below one. -/
def OffCycles (forest : Forest) (k : NodeId) : Prop :=
  ∀ a, forest.wayUp.AtOrAbove a k → ¬ forest.wayUp.Above a a

/-! ### The recursion -/

/-- The text of a slot that is not above itself, as it is meant: its name, and
the texts of the slots under it in parentheses. It is used in place of the
definition, whose recursion also carries the proofs that it ends. -/
theorem slotText_eq (hself : ¬ forest.wayUp.Above k k) :
    forest.slotText k = forest.nameAt k ++
      if forest.family (some k) = [] then ""
      else "(" ++ " ".intercalate ((forest.family (some k)).map forest.slotText) ++ ")" := by
  rw [slotText, dif_neg hself]
  simp only [List.map_attach_eq_pmap, List.pmap_eq_map]

/-- The text of a slot depends on the names at and below it. The induction goes
up from the slots with nothing below them. -/
theorem slotText_congr (hparents : forest'.map Node.parent = forest.map Node.parent)
    (hself : ¬ forest.wayUp.Above k k)
    (hnames : ∀ j, forest.wayUp.AtOrAbove k j → forest'.nameAt j = forest.nameAt j) :
    forest'.slotText k = forest.slotText k := by
  have hparent := parent?_of_map_parent hparents
  have hup : forest'.wayUp = forest.wayUp := funext hparent
  have hfamily := family_congr (size_of_map_parent hparents) hparent
  refine WayUp.induction_down forest.wayUp_within (motive := fun k =>
    (∀ j, forest.wayUp.AtOrAbove k j → forest'.nameAt j = forest.nameAt j) →
      forest'.slotText k = forest.slotText k) ?_ k hself hnames
  intro k hself ih hnames
  have htexts : (forest.family (some k)).map forest'.slotText =
      (forest.family (some k)).map forest.slotText := by
    refine List.map_congr_left fun c hc => ih c (mem_family_some.1 hc) fun j hj => ?_
    exact hnames j (hj.tail (mem_family_some.1 hc))
  rw [slotText_eq hself, slotText_eq (by rwa [hup]), hfamily, htexts,
    hnames k (WayUp.AtOrAbove.refl k)]

/-! ### The trees of a linked forest -/

/-- Setting the links changes no name. -/
theorem nameAt_familyLinked (forest : Forest) (k : NodeId) :
    forest.familyLinked.nameAt k = forest.nameAt k := by
  rw [nameAt, nameAt, getElem?_familyLinked]
  cases forest[k]? <;> rfl

/-- The trees along a row of slots have the texts of these slots. The induction
is on the trees; below a node they start with the first slot under it, and that
starts a row again. -/
theorem Grown.texts_eq (h : forest.familyLinked.Grown link grove)
    (hrow : forest.familyLinked.Row link ids) (hself : ∀ k ∈ ids, ¬ forest.wayUp.Above k k) :
    (grove.map forest.familyLinked.nameAt).texts = ids.map forest.slotText := by
  induction h generalizing ids with
  | nil =>
    cases hrow
    rfl
  | @cons id node below behind hnode hbelow _ ihBelow ihBehind =>
    cases hrow with
    | @cons _ node' ids hnode' hrow =>
      rw [hnode] at hnode'
      cases hnode'
      obtain ⟨hid, hids⟩ := List.forall_mem_cons.1 hself
      -- Below the node the trees start with the first slot under it.
      have hchild : node.child = forest.firstChild? id := by
        rw [getElem?_familyLinked, Option.map_eq_some_iff] at hnode
        obtain ⟨unlinked, -, rfl⟩ := hnode
        rfl
      rw [hchild] at ihBelow
      have htexts := ihBelow (forest.row_family (some id)) fun c hc =>
        WayUp.not_above_self_of_up (mem_family_some.1 hc) hid
      have hnil : (below.map forest.familyLinked.nameAt).isNil = true ↔
          forest.family (some id) = [] := by
        rw [← Grove.texts_eq_nil_iff, htexts, List.map_eq_nil_iff]
      rw [Grove.map, Grove.texts, ihBehind hrow hids, List.map_cons, slotText_eq hid, htexts,
        nameAt_familyLinked]
      simp only [hnil]

/-- Writing a linked forest comes to its end, with the texts of the slots at the
top level and blanks between them. -/
theorem writes_slotTexts (forest : Forest) :
    Outline.Writes forest.familyLinked
      [.siblings forest.familyLinked.size forest.familyLinked.walkTop.ahead true] ""
      (" ".intercalate ((forest.family none).map forest.slotText)) := by
  obtain ⟨grove, hgrown, -, hwrites⟩ := forest.exists_grown_writes
  have htexts := hgrown.texts_eq (forest.row_family none) fun t ht =>
    WayUp.not_above_of_up_none (mem_family.1 ht).2
  rw [Grove.text_eq_intercalate, htexts] at hwrites
  simpa using hwrites

/-! ### Cycles -/

/-- What is at or below a slot at the top level is not on a cycle, and not below
one. Its way up has an end. -/
theorem offCycles_of_top (ht : forest.parent? t = none) (hk : forest.wayUp.AtOrAbove t k) :
    forest.OffCycles k := by
  intro a ha
  exact WayUp.not_above_self_of_end ht (hk.of_end ht ha)

/-- Linking an array that holds all parents succeeds. After that, writing the
outline comes to its end, and the outline is the texts of the slots without a
parent, from the lowest to the highest, with blanks between them. Slots on a
cycle of parents or below one are not written: arrays with the same parents have
the same outline if they have the same names in all other slots. -/
theorem relink_outline (hclosed : forest.Closed) :
    ∃ linked, forest.relink = .ok linked ∧
      Outline.Writes linked [.siblings linked.size linked.walkTop.ahead true] "" linked.outline ∧
      linked.outline = " ".intercalate ((forest.family none).map forest.slotText) ∧
      ∀ forest' : Forest, forest'.map Node.parent = forest.map Node.parent →
        (∀ k, forest.OffCycles k → forest'.nameAt k = forest.nameAt k) →
          ∃ linked', forest'.relink = .ok linked' ∧ linked'.outline = linked.outline := by
  have houtline : ∀ forest : Forest, forest.familyLinked.outline =
      " ".intercalate ((forest.family none).map forest.slotText) :=
    fun forest => forest.writes_slotTexts.write_eq
  refine ⟨forest.familyLinked, relink_eq hclosed, ?_, houtline forest, ?_⟩
  · rw [houtline]
    exact forest.writes_slotTexts
  · intro forest' hparents hnames
    refine ⟨forest'.familyLinked, relink_eq (hclosed.of_map_parent hparents), ?_⟩
    -- The same slots are at the top level, and what is below them is off all cycles.
    have hfamily := family_congr (size_of_map_parent hparents) (parent?_of_map_parent hparents)
    rw [houtline, houtline, hfamily]
    congr 1
    refine List.map_congr_left fun t ht => ?_
    have htop := (mem_family.1 ht).2
    exact slotText_congr hparents (WayUp.not_above_of_up_none htop) fun j hj =>
      hnames j (offCycles_of_top htop hj)

/-- The nodes of `tangled` with another name for the one that is caught below a
cycle. -/
def retangled : Forest := tangled.set! 8 (Node.fresh "free" (some 3) 0)

/-- The hypotheses hold of `tangled`, which has cycles. A slot below one of them
has another name in `retangled`, and the outline is the same. -/
theorem relink_outline_tangled :
    tangled.Closed ∧ retangled.map Node.parent = tangled.map Node.parent ∧
      ∃ linked linked', tangled.relink = .ok linked ∧ retangled.relink = .ok linked' ∧
        linked.outline = "group(early late(leaf)) other" ∧
        linked'.outline = "group(early late(leaf)) other" := by
  have hclosed : tangled.Closed := by decide
  have hparents : retangled.map Node.parent = tangled.map Node.parent := by decide +kernel
  have hnames : ∀ k, tangled.OffCycles k → retangled.nameAt k = tangled.nameAt k := by
    intro k hk
    rcases eq_or_ne k 8 with rfl | hne
    · have hcircle : tangled.wayUp.Above 3 3 := by decide
      have habove : tangled.wayUp.Above 3 8 := WayUp.above_of_up rfl
      exact absurd hcircle (hk 3 habove.atOrAbove)
    · rw [nameAt, nameAt, retangled, Array.set!_eq_setIfInBounds,
        Array.getElem?_setIfInBounds_ne hne.symm]
  obtain ⟨linked, hlinked, -, -, hrename⟩ := relink_outline hclosed
  obtain ⟨linked', hlinked', hsame⟩ := hrename retangled hparents hnames
  have houtline : tangled.relink.map outline = .ok "group(early late(leaf)) other" := by
    decide +kernel
  rw [hlinked] at houtline
  have htext : linked.outline = "group(early late(leaf)) other" := Except.ok.inj houtline
  exact ⟨hclosed, hparents, linked, linked', hlinked, hlinked', htext, hsame.trans htext⟩

end ParseForest.Forest
