import ParseForest.Adoption
import ParseForest.Proofs.Collecting
import ParseForest.Proofs.Fallible

/-!
# `ParseForest.Proofs.Adoption.Brood`: the children of one node go through adoption

`Brood.meet` goes through the children of a node in order and changes the array
on the way. `Forest.takenIn` is the array when some of them are behind, read off
the array as it was before the first. `Brood.Passed` is the invariant of the
loop; beside the array it knows the run of siblings that the next collecting one
takes in, which are those that no sibling behind them has taken in, and the
length of the siblings that do not collect.

`Brood.meetAll_cases` is the loop: it ends with all children taken in, or the
length of those that do not collect leaves 64 bits.
-/

set_option autoImplicit false

namespace ParseForest

namespace Forest

variable {forest : Forest} {done : List NodeId} {run : Array NodeId} {node : Node}
  {c k p parent : NodeId}

/-- The array when some children of `p` went through adoption. -/
def takenIn (forest : Forest) (p : NodeId) (siblings : List NodeId) : Forest :=
  forest.mapIdx fun k node =>
    if k ∈ siblings then forest.adoptAmong siblings k node
    else if k = p then { node with child := (forest.lastCollector? siblings).or node.child }
    else node

/-- What a slot holds when the children in `siblings` are behind: one of them
holds what adoption among them makes of it, and `p` has the last of them that
collects for its first child. -/
theorem getElem?_takenIn (forest : Forest) (p : NodeId) (siblings : List NodeId) (k : NodeId) :
    (forest.takenIn p siblings)[k]? = forest[k]?.map fun node =>
      if k ∈ siblings then forest.adoptAmong siblings k node
      else if k = p then { node with child := (forest.lastCollector? siblings).or node.child }
      else node := by
  rw [takenIn, Array.getElem?_mapIdx]

/-- Adoption moves no node and adds none, so a slot of the array stays one. -/
@[simp] theorem size_takenIn (forest : Forest) (p : NodeId) (siblings : List NodeId) :
    (forest.takenIn p siblings).size = forest.size :=
  Array.size_mapIdx

/-- Before the first child the array is as it was, the first child of `p`
included. -/
theorem takenIn_nil (forest : Forest) (p : NodeId) : forest.takenIn p [] = forest := by
  refine Array.ext_getElem? fun k => ?_
  rw [getElem?_takenIn]
  by_cases hk : k = p <;> simp [hk, lastCollector?]

/-! ### The changes to the array -/

/-- A node that covers another stretch of text is in the same array. -/
theorem size_cover (forest : Forest) (c : NodeId) (offset length : ByteCount) :
    (forest.cover c offset length).size = forest.size :=
  Array.size_modify

/-- Only the offset and the length of the one node change. A node that is not in
the array is passed over, so nothing is asked of `c`. -/
theorem getElem?_cover (forest : Forest) (c : NodeId) (offset length : ByteCount) (k : NodeId) :
    (forest.cover c offset length)[k]? = forest[k]?.map fun node =>
      { node with
        offset := if k = c then offset else node.offset
        length := if k = c then length else node.length } := by
  rw [cover, Array.getElem?_modify]
  by_cases hk : c = k
  · subst hk
    simp
  · simp [hk, Ne.symm hk]

/-- The array with some nodes under another one. -/
def hung (forest : Forest) (ids : List NodeId) (parent : NodeId) : Forest :=
  forest.mapIdx fun k node =>
    { node with parent := if k ∈ ids then some parent else node.parent }

/-- Only parents change, and only those of the nodes that are hung. It does not
matter in which order they come or whether one comes twice. -/
theorem getElem?_hung (forest : Forest) (ids : List NodeId) (parent k : NodeId) :
    (forest.hung ids parent)[k]? = forest[k]?.map fun node =>
      { node with parent := if k ∈ ids then some parent else node.parent } := by
  rw [hung, Array.getElem?_mapIdx]

/-- Hanging a node and then others under the same parent is hanging all of them.
The node was fetched before, so what is written back differs in its parent
alone. -/
theorem hung_setIfInBounds (hnode : forest[k]? = some node) (ids : List NodeId)
    (parent : NodeId) :
    hung (forest.setIfInBounds k { node with parent := some parent }) ids parent =
      forest.hung (k :: ids) parent := by
  have hk : k < forest.size := (Array.getElem?_eq_some_iff.1 hnode).1
  refine Array.ext_getElem? fun j => ?_
  rw [getElem?_hung, getElem?_hung, Array.getElem?_setIfInBounds]
  by_cases hkj : k = j
  · subst hkj
    rw [if_pos rfl, if_pos hk, hnode]
    simp
  · simp [hkj, Ne.symm hkj]

/-- With no nodes to hang, nothing changes. It is the end of the induction in
`Forest.hang_eq`. -/
theorem hung_nil (forest : Forest) (parent : NodeId) : forest.hung [] parent = forest := by
  refine Array.ext_getElem? fun k => ?_
  rw [getElem?_hung]
  simp

/-- Nodes of the array can be hung under another one, and then all of them are.
The induction is on the nodes that are left, with `Forest.hung_setIfInBounds`
for the first. -/
theorem hang_eq {ids : Array NodeId} (hids : ∀ id ∈ ids.toList, id < forest.size) :
    forest.hang ids parent = .ok (forest.hung ids.toList parent) := by
  rw [hang, ← Array.foldlM_toList]
  generalize ids.toList = ids at hids
  induction ids generalizing forest with
  | nil => rw [hung_nil]; rfl
  | cons id ids ih =>
    have hnode := Array.getElem?_eq_getElem (hids id List.mem_cons_self)
    rw [List.foldlM_cons, fetch_eq_ok hnode, except_ok_bind, ← hung_setIfInBounds hnode]
    refine ih fun id hid => ?_
    rw [Array.size_setIfInBounds]
    exact hids id (List.mem_cons_of_mem _ hid)

/-- Only the first child of the parent changes. What was its first child before
is still in the array, but is led to no more. -/
theorem getElem?_leadWith (forest : Forest) (parent child k : NodeId) :
    (forest.leadWith parent child)[k]? = forest[k]?.map fun node =>
      { node with child := if k = parent then some child else node.child } := by
  rw [leadWith, Array.getElem?_modify]
  by_cases hk : parent = k
  · subst hk
    simp
  · simp [hk, Ne.symm hk]

/-- All that changes when a collecting node takes in a run of siblings: its own
span, the parents of the run, and the first child of `p`. Each field is changed
by one of the three writes, so they do not interfere. -/
theorem getElem?_adopt (forest : Forest) (p c : NodeId) (run : Array NodeId)
    (offset length : ByteCount) (k : NodeId) :
    (((forest.cover c offset length).hung run.toList c).leadWith p c)[k]? =
      forest[k]?.map fun node =>
        { node with
          offset := if k = c then offset else node.offset
          length := if k = c then length else node.length
          parent := if k ∈ run.toList then some c else node.parent
          child := if k = p then some c else node.child } := by
  rw [getElem?_leadWith, getElem?_hung, getElem?_cover, Option.map_map, Option.map_map]
  rfl

/-! ### One more child -/

/-- A child that does not collect changes nothing. It is no one's parent by
this, and what becomes of it is settled by the children behind it. -/
theorem takenIn_concat_plain (hnode : forest[c]? = some node) (hplain : node.collects = false)
    (hbefore : ∀ k ∈ done, k < c) (hpc : c ≠ p) :
    forest.takenIn p (done ++ [c]) = forest.takenIn p done := by
  have hcollects : forest.collectsAt c = false := (collectsAt_eq hnode).trans hplain
  refine Array.ext_getElem? fun k => ?_
  rw [getElem?_takenIn, getElem?_takenIn]
  by_cases hkc : k = c
  · -- The child itself would have to collect to cover anything.
    subst hkc
    have hnot : k ∉ done := fun hmem => Nat.lt_irrefl k (hbefore k hmem)
    have hself : forest.adoptAmong (done ++ [k]) k node = node := by
      rw [adoptAmong_concat_self hbefore, if_neg (by simp [hplain]), if_neg (by simp [hplain])]
    simp [hnode, hnot, hpc, hself]
  · congr 1
    funext node'
    by_cases hk : k ∈ done
    · rw [if_pos (by simp [hk]), if_pos hk, adoptAmong_concat_of_mem hk (hbefore k hk)]
      simp [hcollects, adoptAmong]
    · simp [hk, hkc, lastCollector?_concat, hcollects]

/-- A child that collects takes in those before it that none has taken in, and
covers all before it. The last three hypotheses are what the pass knows at that
point: the run, where the siblings start, and how long they are. -/
theorem takenIn_concat_collector {offset length : ByteCount} (hnode : forest[c]? = some node)
    (hcollects : node.collects = true) (hbefore : ∀ k ∈ done, k < c) (hpc : c ≠ p)
    (hp : p ∉ done)
    (hrun : run.toList = done.filter fun k => (forest.collectorAmong? done k).isNone)
    (hoffset : offset = (((done ++ [c]).head?.bind (forest[·]?)).getD node).offset)
    (hlength : length = .ofNat (forest.plainLength done)) :
    forest.takenIn p (done ++ [c]) =
      (((forest.takenIn p done).cover c offset length).hung run.toList c).leadWith p c := by
  have hcollectsAt : forest.collectsAt c = true := (collectsAt_eq hnode).trans hcollects
  have hnot : c ∉ done := fun hmem => Nat.lt_irrefl c (hbefore c hmem)
  refine Array.ext_getElem? fun k => ?_
  rw [getElem?_adopt, getElem?_takenIn, getElem?_takenIn, Option.map_map, hrun]
  by_cases hkc : k = c
  · subst hkc
    simp [hnode, hnot, hpc, adoptAmong_concat_self hbefore, hcollects, hoffset, hlength]
  · congr 1
    funext node'
    simp only [Function.comp_apply]
    by_cases hk : k ∈ done
    · -- A child before is in the run exactly if none has taken it in.
      have hkp : k ≠ p := fun heq => hp (heq ▸ hk)
      rw [if_pos (by simp [hk]), if_pos hk, adoptAmong_concat_of_mem hk (hbefore k hk),
        if_neg hkc, if_neg hkc, if_neg hkp]
      cases hcollector : forest.collectorAmong? done k with
      | none => simp [hk, hcollector, hcollectsAt]
      | some d => simp [hcollector, adoptAmong]
    · -- It is none of the children: it may be `p`, whose first child is the new one now.
      by_cases hkp : k = p
      · subst hkp
        simp [hk, hkc, lastCollector?_concat, hcollectsAt]
      · simp [hk, hkc, hkp]

end Forest

namespace Brood

variable {base : Adoption} {brood brood' : Brood} {done : List NodeId} {node : Node}
  {c p : NodeId}

/-- Some children of `p` are behind, and the pass was at `base` before the
first. -/
structure Passed (base : Adoption) (p : NodeId) (done : List NodeId) (brood : Brood) : Prop where
  /-- The array is as it is to be with these children taken in. -/
  forest_eq : brood.adoption.forest = base.forest.takenIn p done
  /-- The children that do not collect wait, the last one first. -/
  waiting_eq : brood.adoption.waiting =
    (done.filter fun k => !base.forest.collectsAt k).reverse ++ base.waiting
  events_eq : brood.adoption.events.toList =
    base.events.toList ++ base.forest.absorptions p done
  /-- The run is made of the children that no child behind them has taken in. -/
  run_eq : brood.run.toList = done.filter fun k => (base.forest.collectorAmong? done k).isNone
  /-- It starts with a collecting child, or with the first child of all. -/
  lead : ∀ first, brood.run.toList.head? = some first →
    base.forest.collectsAt first ∨ done.head? = some first
  length_eq : brood.length.toNat = base.forest.plainLength done

/-- Before the first child nothing has changed, and the run is empty. -/
theorem passed_nil (base : Adoption) (p : NodeId) : Passed base p [] ⟨base, #[], 0⟩ where
  forest_eq := (base.forest.takenIn_nil p).symm
  waiting_eq := rfl
  events_eq := by simp [Forest.absorptions]
  run_eq := rfl
  lead := by simp
  length_eq := rfl

/-- A child of `p` comes next after those that are behind: it is found in the
array, and all of them are other slots than `p`, in order. -/
structure Next (base : Adoption) (p : NodeId) (done : List NodeId) (c : NodeId) (node : Node) :
    Prop where
  found : base.forest[c]? = some node
  sorted : done.Pairwise (· < ·)
  present : ∀ k ∈ done, k < base.forest.size
  before : ∀ k ∈ done, k < c
  ne : c ≠ p
  not_mem : p ∉ done

namespace Passed

/-- The next child is as it was before the first: it is not among those behind,
and it is not `p`, which are all that may have changed. -/
theorem fetch_eq (h : Passed base p done brood) (hc : Next base p done c node) :
    brood.adoption.forest.fetch c = .ok node := by
  have hnot : c ∉ done := fun hmem => Nat.lt_irrefl c (hc.before c hmem)
  rw [Forest.fetch, h.forest_eq, Forest.getElem?_takenIn, hc.found]
  simp [hnot, hc.ne]

/-- If the run is empty, no child is behind, because the last child behind is
always in the run. So a collecting node without a run is the first child. -/
theorem eq_nil_of_run (h : Passed base p done brood) (hsorted : done.Pairwise (· < ·))
    (hrun : brood.run.toList.head? = none) : done = [] := by
  rw [List.head?_eq_none_iff, h.run_eq] at hrun
  -- The last child that is behind has nothing behind it, so it is in the run.
  rcases List.eq_nil_or_concat done with hnil | ⟨front, last, rfl⟩
  · exact hnil
  · rw [List.concat_eq_append, List.pairwise_append] at hsorted
    have hbefore : ∀ k ∈ front, k < last := fun k hk =>
      hsorted.2.2 k hk last List.mem_cons_self
    have hmem : last ∈ front.concat last := by simp
    have hnone := List.filter_eq_nil_iff.1 hrun last hmem
    rw [List.concat_eq_append, Forest.collectorAmong?_concat,
      Forest.collectorAmong?_eq_none base.forest hbefore] at hnone
    simp at hnone

/-- The run starts where the first child does: it starts with the first child,
or with a collecting one that covers all before it. So the offset of the first
of the run is the offset of the first child in either case. -/
theorem fetch_first (h : Passed base p done brood) (hc : Next base p done c node) :
    ∃ first, brood.adoption.forest.fetch (brood.run[0]?.getD c) = .ok first ∧
      first.offset = (((done ++ [c]).head?.bind (base.forest[·]?)).getD node).offset := by
  have hfirst : brood.run[0]? = brood.run.toList.head? := by
    rw [List.head?_eq_getElem?, Array.getElem?_toList]
  rw [hfirst]
  cases hrun : brood.run.toList.head? with
  | none =>
    refine ⟨node, h.fetch_eq hc, ?_⟩
    rw [h.eq_nil_of_run hc.sorted hrun]
    simp [hc.found]
  | some first =>
    -- The run is made of children that are behind, and these are in the array.
    have hmem : first ∈ done := by
      have := List.mem_of_head? hrun
      rw [h.run_eq] at this
      exact List.mem_of_mem_filter this
    obtain ⟨head, hhead⟩ : ∃ head, done.head? = some head := by
      cases done with
      | nil => cases hmem
      | cons head _ => exact ⟨head, rfl⟩
    have hlt := hc.present first hmem
    have hheadLt := hc.present head (List.mem_of_head? hhead)
    have hfound := base.forest.getElem?_takenIn p done first
    rw [Array.getElem?_eq_getElem hlt, Option.map_some, if_pos hmem, ← h.forest_eq] at hfound
    refine ⟨_, Forest.fetch_eq_ok hfound, ?_⟩
    rw [List.head?_append, hhead]
    simp only [Option.some_or, Option.bind_some, Array.getElem?_eq_getElem hheadLt,
      Option.getD_some, Forest.adoptAmong, hhead]
    rcases h.lead first hrun with hcollects | hfirst
    · rw [Forest.collectsAt_eq (Array.getElem?_eq_getElem hlt)] at hcollects
      rw [if_pos hcollects]
    · rw [hhead] at hfirst
      cases hfirst
      simp

/-- A child that does not collect is passed, if its length can be added. It
joins the run and waits to be visited, and the array stays as it is. -/
theorem pass (h : Passed base p done brood) (hc : Next base p done c node)
    (hplain : node.collects = false) (hpass : brood.pass c node = .ok brood') :
    Passed base p (done ++ [c]) brood' := by
  have hcollects : base.forest.collectsAt c = false :=
    (Forest.collectsAt_eq hc.found).trans hplain
  have hnone := Forest.collectorAmong?_eq_none base.forest hc.before
  have hsame : ∀ k, base.forest.collectorAmong? (done ++ [c]) k =
      base.forest.collectorAmong? done k := by
    simp [Forest.collectorAmong?_concat, hcollects]
  rw [Brood.pass] at hpass
  cases hadd : brood.length.add? node.length with
  | none => simp [hadd] at hpass
  | some length =>
    simp only [hadd, Except.ok.injEq] at hpass
    subst hpass
    constructor
    case forest_eq =>
      rw [Forest.takenIn_concat_plain hc.found hplain hc.before hc.ne]
      exact h.forest_eq
    case waiting_eq => simp [h.waiting_eq, hcollects]
    case events_eq =>
      rw [Forest.absorptions_concat_plain hcollects hc.before]
      exact h.events_eq
    case run_eq => simp [h.run_eq, hsame, hnone]
    case lead =>
      intro first hfirst
      simp only [Array.toList_push, List.head?_append, Option.or_eq_some_iff] at hfirst
      rcases hfirst with hfirst | ⟨hrun, hself⟩
      · refine (h.lead first hfirst).imp_right fun hhead => ?_
        rw [List.head?_append, hhead, Option.some_or]
      · -- The run was empty, so this is the first child.
        rw [h.eq_nil_of_run hc.sorted hrun]
        exact Or.inr hself
    case length_eq =>
      rw [Forest.plainLength_concat done hc.found, if_neg (by simp [hplain]), ← h.length_eq]
      exact ByteCount.add?_eq_some_iff.1 hadd

/-- A child that collects takes in the run. This cannot fail, since the run is
made of slots of the array, and the new run is the collecting child alone. -/
theorem adopt (h : Passed base p done brood) (hc : Next base p done c node)
    (hcollects : node.collects = true) :
    ∃ brood', brood.adopt p c = .ok brood' ∧ Passed base p (done ++ [c]) brood' := by
  have hcollectsAt : base.forest.collectsAt c = true :=
    (Forest.collectsAt_eq hc.found).trans hcollects
  have hnone := Forest.collectorAmong?_eq_none base.forest hc.before
  have hlength : brood.length = .ofNat (base.forest.plainLength done) := by
    rw [← h.length_eq, UInt64.ofNat_toNat]
  obtain ⟨first, hfetch, hoffset⟩ := h.fetch_first hc
  have htaken := Forest.takenIn_concat_collector hc.found hcollects hc.before hc.ne hc.not_mem
    h.run_eq hoffset hlength
  -- All of the run can be hung, because it is in the array.
  have hids : ∀ id ∈ brood.run.toList,
      id < (brood.adoption.forest.cover c first.offset brood.length).size := by
    intro id hid
    rw [h.run_eq] at hid
    rw [Forest.size_cover, h.forest_eq, Forest.size_takenIn]
    exact hc.present id (List.mem_of_mem_filter hid)
  rw [Brood.adopt, hfetch, except_ok_bind]
  simp only [Forest.hang_eq hids, except_ok_bind]
  refine ⟨_, rfl, ?_⟩
  constructor
  case forest_eq =>
    rw [htaken, ← h.forest_eq]
  case waiting_eq => simp [h.waiting_eq, hcollectsAt]
  case events_eq =>
    have hsize : brood.run.size =
        done.countP fun k => (base.forest.collectorAmong? done k).isNone := by
      rw [List.countP_eq_length_filter, ← h.run_eq, Array.length_toList]
    rw [Forest.absorptions_concat_collector hcollectsAt hc.before, ← List.append_assoc,
      ← h.events_eq, ← hsize]
    simp
  case run_eq =>
    -- All children before were taken in, at the latest by this one.
    have htakenIn : ∀ k ∈ done,
        ¬ (base.forest.collectorAmong? (done ++ [c]) k).isNone := by
      intro k hk
      simp [Forest.collectorAmong?_concat, hc.before k hk, hcollectsAt]
    rw [List.filter_append, List.filter_eq_nil_iff.2 htakenIn]
    simp [Forest.collectorAmong?_concat, hnone]
  case lead =>
    intro first hfirst
    simp only [List.head?_cons, Option.some.injEq] at hfirst
    exact Or.inl (hfirst ▸ hcollectsAt)
  case length_eq =>
    rw [Forest.plainLength_concat done hc.found, if_pos hcollects]
    exact h.length_eq

end Passed

/-- A child is not passed only if its length cannot be added. It is the one way
in which the loop over the children of a tree can stop. -/
theorem pass_eq_error {fault : Fault} (h : brood.pass c node = .error fault) :
    fault = .sizeOverflow ∧ UInt64.size ≤ brood.length.toNat + node.length.toNat := by
  rw [Brood.pass] at h
  cases hadd : brood.length.add? node.length with
  | some length => simp [hadd] at h
  | none =>
    simp only [hadd, Except.error.injEq] at h
    exact ⟨h.symm, ByteCount.add?_eq_none_iff.1 hadd⟩

/-- All children of a node go through adoption, or the length of those that do
not collect leaves 64 bits. Only one of the two happens: where all are passed,
their length is a number of 64 bits, and `Brood.Passed` says which. -/
theorem meetAll_cases (base : Adoption) (p : NodeId) (ids : List NodeId)
    (hsorted : ids.Pairwise (· < ·)) (hpresent : ∀ k ∈ ids, k < base.forest.size)
    (hp : p ∉ ids) :
    (∃ brood, ids.foldlM (meet p) ⟨base, #[], 0⟩ = .ok brood ∧ Passed base p ids brood) ∨
      (ids.foldlM (meet p) ⟨base, #[], 0⟩ = .error .sizeOverflow ∧
        UInt64.size ≤ base.forest.plainLength ids) := by
  have hnext : ∀ done c rest, ids = done ++ c :: rest → ∃ node, Next base p done c node := by
    intro done c rest hids
    subst hids
    rw [List.pairwise_append] at hsorted
    have hlt := hpresent c (by simp)
    refine ⟨base.forest[c], ?_⟩
    constructor
    case found => exact Array.getElem?_eq_getElem hlt
    case sorted => exact hsorted.1
    case present => exact fun k hk => hpresent k (List.mem_append_left _ hk)
    case before => exact fun k hk => hsorted.2.2 k hk c List.mem_cons_self
    case ne => exact fun heq => hp (heq ▸ by simp)
    case not_mem => exact fun hmem => hp (List.mem_append_left _ hmem)
  have hstep : ∀ done c rest brood, ids = done ++ c :: rest → Passed base p done brood →
      (∃ brood', meet p brood c = .ok brood' ∧ Passed base p (done ++ [c]) brood') ∨
        ∃ fault, meet p brood c = .error fault ∧
          fault = .sizeOverflow ∧ UInt64.size ≤ base.forest.plainLength ids := by
    intro done c rest brood hids hpassed
    obtain ⟨node, hc⟩ := hnext done c rest hids
    rw [meet, hpassed.fetch_eq hc, except_ok_bind]
    by_cases hcollects : node.collects
    · rw [if_pos hcollects]
      exact Or.inl (hpassed.adopt hc hcollects)
    · rw [if_neg hcollects]
      cases hpass : brood.pass c node with
      | ok brood' =>
        exact Or.inl ⟨brood', rfl, hpassed.pass hc (by simpa using hcollects) hpass⟩
      | error fault =>
        -- What is too long already gets no shorter by the children that are left.
        obtain ⟨hfault, hover⟩ := pass_eq_error hpass
        have hlength := Forest.plainLength_concat done hc.found
        rw [if_neg hcollects, ← hpassed.length_eq] at hlength
        have hsplit := Forest.plainLength_append base.forest (done ++ [c]) rest
        rw [List.append_assoc, List.singleton_append, ← hids] at hsplit
        exact Or.inr ⟨fault, rfl, hfault, by omega⟩
  rcases foldlM_cases (meet p) ⟨base, #[], 0⟩ ids (Passed base p) _ (passed_nil base p) hstep with
    hok | ⟨_, herror, rfl, hlong⟩
  · exact Or.inl hok
  · exact Or.inr ⟨herror, hlong⟩

end Brood

end ParseForest
