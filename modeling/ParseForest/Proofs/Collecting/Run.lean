import ParseForest.Proofs.Collecting
import ParseForest.Proofs.Validity

/-!
# `ParseForest.Proofs.Collecting.Run`: the stretch that a collecting node covers

A collecting node covers the siblings before it that do not collect:
`Forest.plainChildren` lists them. It starts where the first of them does and is
as long as all of them together (`Forest.span_adoptedWhere_of_collects`).

Where that ends depends on how the siblings lie in the text.
`Forest.reach_of_isChain` says so for siblings that lie without gaps, for
siblings that do not overlap, and for whatever else can be asked of the end of
one and the start of the next.
-/

set_option autoImplicit false

namespace ParseForest.Forest

variable {forest : Forest} {visited : NodeId → Bool} {ids : List NodeId} {node : Node}
  {c k m n p first last : NodeId}

/-- Where the node of a slot starts. -/
def startAt (forest : Forest) (k : NodeId) : Nat :=
  forest[k]?.elim 0 fun node => node.offset.toNat

/-- How long the node of a slot is. -/
def lengthAt (forest : Forest) (k : NodeId) : Nat :=
  forest[k]?.elim 0 fun node => node.length.toNat

/-- Where the node of a slot ends, be it further out than 64 bits can name. -/
def stopAt (forest : Forest) (k : NodeId) : Nat := forest.startAt k + forest.lengthAt k

/-- The children of `p` below a slot, in order, those that collect left out. -/
def plainChildren (forest : Forest) (p : NodeId) (below : Nat) : List NodeId :=
  (List.range below).filter fun k => forest.parent? k = some p && !forest.collectsAt k

/-! ### Spans of slots -/

/-- A slot of the array starts where its node does. -/
theorem startAt_eq (hnode : forest[k]? = some node) : forest.startAt k = node.offset.toNat := by
  rw [startAt, hnode]
  rfl

/-- A slot of the array is as long as its node. -/
theorem lengthAt_eq (hnode : forest[k]? = some node) : forest.lengthAt k = node.length.toNat := by
  rw [lengthAt, hnode]
  rfl

/-- A node of the array can be told its span exactly if it ends at a position
that 64 bits can name. -/
theorem exists_span_iff (hnode : forest[k]? = some node) :
    (∃ span, node.span = .ok span) ↔ forest.stopAt k < UInt64.size := by
  rw [stopAt, startAt_eq hnode, lengthAt_eq hnode]
  constructor
  · rintro ⟨span, hspan⟩
    rw [← (Node.span_eq_ok_iff.1 hspan).2]
    exact span.stop.toNat_lt_size
  · intro hlt
    refine ⟨⟨node.offset, node.offset + node.length⟩, Node.span_eq_ok_iff.2 ⟨rfl, ?_⟩⟩
    show (node.offset + node.length).toNat = _
    rw [UInt64.toNat_add]
    exact Nat.mod_eq_of_lt hlt

/-! ### Children that do not collect -/

/-- The children of `p` below a slot that do not collect, by what is asked of
them. -/
theorem mem_plainChildren :
    k ∈ forest.plainChildren p n ↔
      k < n ∧ forest.parent? k = some p ∧ forest.collectsAt k = false := by
  simp [plainChildren]

/-- The children below a lower slot come first. -/
theorem plainChildren_mono (forest : Forest) (p : NodeId) (h : m ≤ n) :
    forest.plainChildren p m <+: forest.plainChildren p n := by
  obtain ⟨i, rfl⟩ := Nat.exists_eq_add_of_le h
  rw [plainChildren, plainChildren, List.range_add, List.filter_append]
  exact List.prefix_append _ _

/-- A child that does not collect comes behind those below it. -/
theorem plainChildren_succ (hp : forest.parent? k = some p)
    (hplain : forest.collectsAt k = false) :
    forest.plainChildren p (k + 1) = forest.plainChildren p k ++ [k] := by
  rw [plainChildren, List.range_succ, List.filter_append, plainChildren]
  simp [hp, hplain]

/-- A slot that does not collect counts with its length. -/
theorem plainLength_cons (hplain : forest.collectsAt k = false) :
    forest.plainLength (k :: ids) = forest.lengthAt k + forest.plainLength ids := by
  rw [plainLength, lengthAt]
  cases hnode : forest[k]? with
  | none => rfl
  | some node =>
    rw [collectsAt_eq hnode] at hplain
    simp [hplain]

/-- The first of some siblings are no longer than all of them. So a sum that
fits has fitted all along. -/
theorem plainLength_mono (forest : Forest) {ids' : List NodeId} (h : ids <+: ids') :
    forest.plainLength ids ≤ forest.plainLength ids' := by
  obtain ⟨rest, rfl⟩ := h
  rw [plainLength_append]
  exact Nat.le_add_right _ _

/-- A child that does not collect adds its length to that of the children before
it. -/
theorem plainLength_plainChildren_succ (hp : forest.parent? k = some p)
    (hplain : forest.collectsAt k = false) :
    forest.plainLength (forest.plainChildren p (k + 1)) =
      forest.plainLength (forest.plainChildren p k) + forest.lengthAt k := by
  rw [plainChildren_succ hp hplain, plainLength_append, plainLength_cons hplain]
  rfl

/-- Only the siblings that do not collect count, so those that do can be left
out beforehand. -/
theorem plainLength_filter (forest : Forest) (ids : List NodeId) :
    forest.plainLength (ids.filter fun k => !forest.collectsAt k) = forest.plainLength ids := by
  induction ids with
  | nil => rfl
  | cons k ids ih =>
    cases hcollects : forest.collectsAt k with
    | false => rw [List.filter_cons_of_pos (by simp [hcollects]), plainLength_cons hcollects,
        plainLength_cons hcollects, ih]
    | true =>
      rw [List.filter_cons_of_neg (by simp [hcollects]), ih, plainLength]
      cases hnode : forest[k]? with
      | none => simp
      | some node =>
        rw [collectsAt_eq hnode] at hcollects
        simp [hcollects]

/-- The siblings before a slot are as long as those of them that do not
collect. -/
theorem plainLength_family_before (forest : Forest) (p : NodeId) (hn : n ≤ forest.size) :
    forest.plainLength ((forest.family (some p)).filter fun k => k < n) =
      forest.plainLength (forest.plainChildren p n) := by
  have hbefore : (forest.family (some p)).filter (fun k => k < n) =
      (List.range n).filter fun k => forest.parent? k = some p := by
    obtain ⟨i, hi⟩ := Nat.exists_eq_add_of_le hn
    rw [family, List.filter_filter, hi, List.range_add, List.filter_append]
    have hbehind : ((List.range i).map (n + ·)).filter
        (fun k => decide (k < n) && decide (forest.parent? k = some p)) = [] := by
      simp [List.filter_eq_nil_iff]
    rw [hbehind, List.append_nil]
    refine List.filter_congr fun k hk => ?_
    simp [List.mem_range.1 hk]
  rw [hbefore, ← plainLength_filter, List.filter_filter, plainChildren]
  simp only [Bool.and_comm]

/-- And so are all of them. -/
theorem plainLength_family (forest : Forest) (p : NodeId) :
    forest.plainLength (forest.family (some p)) =
      forest.plainLength (forest.plainChildren p forest.size) := by
  rw [← plainLength_family_before forest p (Nat.le_refl _), List.filter_eq_self.2]
  intro k hk
  simpa using (mem_family.1 hk).1

/-- If 64 bits hold the length of the children of a walked slot, then of those
before a slot: what a collecting node is made to cover is no more than what all
children come to. -/
theorem SumsFit.before (h : forest.SumsFit) (hwalked : forest.Walked p) (hn : n ≤ forest.size) :
    forest.plainLength (forest.plainChildren p n) < UInt64.size := by
  have hall := h p hwalked
  rw [plainLength_family] at hall
  exact Nat.lt_of_le_of_lt (forest.plainLength_mono (forest.plainChildren_mono p hn)) hall

/-- Where a collecting node has a sibling before it, the first of the siblings
does not collect: it would have nothing to take in. So the node starts where the
first sibling that it covers does. -/
theorem exists_head?_plainChildren (hfollow : ∀ d, ¬ forest.CollectsFirst d)
    (hp : forest.parent? c = some p) (hcollects : forest.collectsAt c = true) :
    ∃ first, (forest.family (some p)).head? = some first ∧
      (forest.plainChildren p c).head? = some first := by
  -- Some sibling comes before, so the first one does.
  obtain ⟨d, hdc, hd⟩ : ∃ d < c, forest.parent? d = some p := by
    by_contra hnone
    exact hfollow c ⟨hcollects, p, hp, fun d hd hdp => hnone ⟨d, hd, hdp⟩⟩
  obtain ⟨first, hhead⟩ : ∃ first, (forest.family (some p)).head? = some first := by
    cases hfamily : forest.family (some p) with
    | nil =>
      have hmem := mem_family_some.2 hd
      rw [hfamily] at hmem
      cases hmem
    | cons first _ => exact ⟨first, rfl⟩
  refine ⟨first, hhead, ?_⟩
  rw [family, List.head?_filter, List.find?_range_eq_some] at hhead
  obtain ⟨hfirst, -, hbefore⟩ := hhead
  simp only [decide_eq_true_eq, Bool.not_eq_true', decide_eq_false_iff_not] at hfirst hbefore
  have hplain : forest.collectsAt first = false := by
    rw [← Bool.not_eq_true]
    exact fun hcollects => hfollow first ⟨hcollects, p, hfirst, hbefore⟩
  have hlt : first < c := by
    rcases Nat.lt_or_ge d first with hdf | hfd
    · exact absurd hd (hbefore d hdf)
    · exact Nat.lt_of_le_of_lt hfd hdc
  rw [plainChildren, List.head?_filter, List.find?_range_eq_some]
  refine ⟨by simp [hfirst, hplain], List.mem_range.2 hlt, fun j hj => ?_⟩
  simp [hbefore j hj]

/-! ### Where siblings end -/

/-- If the end of a sibling and the start of the next are in some relation,
which is kept when both move by the same amount, then it is in this relation to
the end of the last sibling where the first one and as much as all of them are
long leads. The induction is on the siblings, from the first on. -/
theorem reach_of_isChain {r : Nat → Nat → Prop} (hrefl : ∀ i, r i i)
    (htrans : ∀ {i j l}, r i j → r j l → r i l) (hadd : ∀ {i j} l, r i j → r (i + l) (j + l))
    (hplain : ∀ k ∈ ids, forest.collectsAt k = false)
    (hchain : ids.IsChain fun a b => r (forest.stopAt a) (forest.startAt b))
    (hfirst : ids.head? = some first) :
    ∃ last, ids.getLast? = some last ∧
      r (forest.startAt first + forest.plainLength ids) (forest.stopAt last) := by
  induction ids generalizing first with
  | nil => cases hfirst
  | cons k ids ih =>
    obtain rfl : k = first := Option.some.inj hfirst
    have hk : forest.plainLength (k :: ids) = forest.lengthAt k + forest.plainLength ids :=
      plainLength_cons (hplain k List.mem_cons_self)
    cases ids with
    | nil =>
      refine ⟨k, rfl, ?_⟩
      rw [hk]
      exact hrefl _
    | cons b ids =>
      -- From the first slot on it is one step to the next, and the rest is known from
      -- there.
      obtain ⟨hkb, hchain⟩ := List.isChain_cons_cons.1 hchain
      obtain ⟨last, hlast, hrest⟩ :=
        ih (fun j hj => hplain j (List.mem_cons_of_mem _ hj)) hchain rfl
      refine ⟨last, List.getLast?_cons_cons.trans hlast, ?_⟩
      rw [hk, ← Nat.add_assoc]
      exact htrans (hadd _ hkb) hrest

/-- Siblings that lie without gaps end where the first one and as much as all of
them are long leads. -/
theorem reach_eq_of_isChain
    (hchain : (forest.plainChildren p n).IsChain fun a b => forest.stopAt a = forest.startAt b)
    (hfirst : (forest.plainChildren p n).head? = some first) :
    ∃ last, (forest.plainChildren p n).getLast? = some last ∧
      forest.startAt first + forest.plainLength (forest.plainChildren p n) =
        forest.stopAt last :=
  reach_of_isChain (fun _ => rfl) Eq.trans (fun _ h => by rw [h])
    (fun _ hk => (mem_plainChildren.1 hk).2.2) hchain hfirst

/-- Siblings that do not overlap end no earlier, as there may be gaps between
them. -/
theorem reach_le_of_isChain
    (hchain : (forest.plainChildren p n).IsChain fun a b => forest.stopAt a ≤ forest.startAt b)
    (hfirst : (forest.plainChildren p n).head? = some first) :
    ∃ last, (forest.plainChildren p n).getLast? = some last ∧
      forest.startAt first + forest.plainLength (forest.plainChildren p n) ≤
        forest.stopAt last :=
  reach_of_isChain Nat.le_refl Nat.le_trans (fun l h => Nat.add_le_add_right h l)
    (fun _ hk => (mem_plainChildren.1 hk).2.2) hchain hfirst

/-! ### After adoption -/

/-- A collecting child of a visited slot starts where the first child does, and
is as long as the children before it that do not collect. -/
theorem adoptedNode_span_of_collects (hnode : forest[k]? = some node) (hp : node.parent = some p)
    (hv : visited p = true) (hcollects : node.collects = true) :
    (∃ first lead, forest.firstChild? p = some first ∧ forest[first]? = some lead ∧
        (forest.adoptedNode visited k node).offset = lead.offset) ∧
      (forest.adoptedNode visited k node).length =
        .ofNat (forest.plainLength (forest.plainChildren p k)) := by
  have hk : k < forest.size := (Array.getElem?_eq_some_iff.1 hnode).1
  have hmem : k ∈ forest.family (some p) := mem_family_some.2 ((parent?_eq hnode).trans hp)
  have hadopted : forest.adoptedNode visited k node =
      { forest.adoptAmong (forest.family (some p)) k node with
        child := (forest.adoptedNode visited k node).child
        next := (forest.adoptedNode visited k node).next } := by
    unfold adoptedNode
    rw [hp, Option.any_some, if_pos hv]
  rw [hadopted]
  unfold adoptAmong firstChild?
  rw [if_pos hcollects, if_pos hcollects,
    plainLength_family_before forest p (Nat.le_of_lt hk)]
  refine ⟨?_, rfl⟩
  -- The family has a first member, since the slot itself is in it.
  cases hfamily : forest.family (some p) with
  | nil =>
    rw [hfamily] at hmem
    cases hmem
  | cons first rest =>
    have hfirst : first ∈ forest.family (some p) := by
      rw [hfamily]
      exact List.mem_cons_self
    have hlead := Array.getElem?_eq_getElem (mem_family.1 hfirst).1
    refine ⟨first, _, rfl, hlead, ?_⟩
    show ((forest[first]?).getD node).offset = _
    rw [hlead]
    rfl

/-- A node that does not collect, or has no siblings to take in, keeps its
span. -/
theorem adoptedNode_span_of_plain
    (h : ∀ p, node.parent = some p → visited p = true → node.collects = false) :
    (forest.adoptedNode visited k node).offset = node.offset ∧
      (forest.adoptedNode visited k node).length = node.length := by
  unfold adoptedNode
  cases hp : node.parent with
  | none => exact ⟨rfl, rfl⟩
  | some p =>
    rw [Option.any_some]
    cases hv : visited p with
    | false => exact ⟨rfl, rfl⟩
    | true => simp [adoptAmong, h p hp hv]

/-- So does its slot: what does not collect, or has no parent, starts and ends
where it did. -/
theorem span_adoptedWhere_of_plain (visited : NodeId → Bool)
    (hk : forest.parent? k = none ∨ forest.collectsAt k = false) :
    (forest.adoptedWhere visited).startAt k = forest.startAt k ∧
      (forest.adoptedWhere visited).stopAt k = forest.stopAt k := by
  rw [stopAt, stopAt, startAt, lengthAt, getElem?_adoptedWhere, startAt, lengthAt]
  cases hnode : forest[k]? with
  | none => exact ⟨rfl, rfl⟩
  | some node =>
    rw [parent?_eq hnode, collectsAt_eq hnode] at hk
    have hplain : ∀ p, node.parent = some p → visited p = true → node.collects = false := by
      intro p hp _
      rcases hk with hnone | hplain
      · rw [hp] at hnone
        cases hnone
      · exact hplain
    have hspan : (forest.adoptedNode visited k node).offset = node.offset ∧
        (forest.adoptedNode visited k node).length = node.length :=
      adoptedNode_span_of_plain hplain
    simp [hspan]

/-- A collecting node starts where the first of its siblings does, and is as
long as those before it that do not collect, if 64 bits hold that. -/
theorem span_adoptedWhere_of_collects (hp : forest.parent? c = some p) (hv : visited p = true)
    (hcollects : forest.collectsAt c = true)
    (hfirst : (forest.family (some p)).head? = some first)
    (hfits : forest.plainLength (forest.plainChildren p c) < UInt64.size) :
    (forest.adoptedWhere visited).startAt c = forest.startAt first ∧
      (forest.adoptedWhere visited).lengthAt c =
        forest.plainLength (forest.plainChildren p c) := by
  have hnode := Array.getElem?_eq_getElem (lt_size_of_parent hp)
  rw [parent?_eq hnode] at hp
  rw [collectsAt_eq hnode] at hcollects
  obtain ⟨⟨_, lead, hhead, hlead, hoffset⟩, hlength⟩ :=
    adoptedNode_span_of_collects hnode hp hv hcollects
  rw [firstChild?, hfirst] at hhead
  cases hhead
  have hadopted := forest.getElem?_adoptedWhere visited c
  rw [hnode] at hadopted
  rw [startAt_eq hadopted, lengthAt_eq hadopted, startAt_eq hlead, hoffset, hlength]
  exact ⟨rfl, UInt64.toNat_ofNat_of_lt hfits⟩

end ParseForest.Forest
