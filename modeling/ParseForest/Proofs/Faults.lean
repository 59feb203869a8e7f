import ParseForest.Proofs.Adoption.Brood
import ParseForest.Proofs.Compaction.Outside
import ParseForest.Proofs.Links.InOrder

/-!
# `ParseForest.Proofs.Faults`: the passes stop where the checks would have

The passes can be run on an array that was not checked. A parent that is not in
the array then makes each of them give up, and nothing else makes one ask for a
slot that does not exist:

* linking gives up for the parent that the checks name
  (`Forest.relink_eq_error_iff`), also if it finds out about it only in the
  middle (`Forest.linkInOrder_eq_relink`);
* adoption starts by linking. From then on it follows the links only, and these
  stay inside the array, also where the parents lead around in circles
  (`Forest.LinksInside`, kept by every step of a visit, so by every visit, so by
  the run);
* compaction gives up when a climb comes to such a parent
  (`Forest.compact_eq_error_iff`).

`Forest.faults_iff_parentOutside` is the three together.
-/

set_option autoImplicit false

namespace ParseForest

/-- The fault is another one than a reference that leads out of an array. -/
def Fault.IsInside (fault : Fault) : Prop :=
  ∀ size index, fault ≠ .indexOutOfBounds size index

namespace Forest

variable {forest : Forest} {size : Nat} {k : NodeId}

/-! ### Adoption -/

/-- The links of an array lead to its slots. -/
structure LinksInside (size : Nat) (forest : Forest) : Prop where
  size_eq : forest.size = size
  child_lt : ∀ (k : NodeId) (node : Node) (c : NodeId),
    forest[k]? = some node → node.child = some c → c < size
  next_lt : ∀ (k : NodeId) (node : Node) (n : NodeId),
    forest[k]? = some node → node.next = some n → n < size

/-- The links that the parents imply lead nowhere else, whatever the parents
are. -/
theorem linksInside_familyLinked (forest : Forest) :
    LinksInside forest.size forest.familyLinked where
  size_eq := forest.size_familyLinked
  child_lt := by
    intro k node c hnode hc
    rw [getElem?_familyLinked, Option.map_eq_some_iff] at hnode
    obtain ⟨node, -, rfl⟩ := hnode
    exact lt_size_of_firstChild? hc
  next_lt := by
    intro k node n hnode hn
    rw [getElem?_familyLinked, Option.map_eq_some_iff] at hnode
    obtain ⟨node, -, rfl⟩ := hnode
    exact lt_size_of_nextSibling? hn

namespace LinksInside

/-- A slot of the array can be fetched. -/
theorem fetch (h : LinksInside size forest) (hk : k < size) :
    EndsIn (fun node => forest[k]? = some node) Fault.IsInside (forest.fetch k) := by
  have hlt : k < forest.size := h.size_eq.symm ▸ hk
  rw [fetch_eq_ok (Array.getElem?_eq_getElem hlt)]
  exact .ok (Array.getElem?_eq_getElem hlt)

/-- A row of siblings stays inside the array, for as long as it is followed. It
may be given up as endless, which is no fault of this kind. -/
theorem fetchRow (h : LinksInside size forest) (fuel : Nat) (ahead : Option NodeId)
    (found : Array NodeId) (hahead : ∀ k, ahead = some k → k < size)
    (hfound : ∀ k ∈ found.toList, k < size) :
    EndsIn (fun ids => ∀ k ∈ ids.toList, k < size) Fault.IsInside
      (forest.fetchRow fuel ahead found) := by
  induction fuel generalizing ahead found with
  | zero =>
    cases ahead with
    | none => exact .ok hfound
    | some id => exact .error fun _ _ => Fault.noConfusion
  | succ fuel ih =>
    cases ahead with
    | none => exact .ok hfound
    | some id =>
      have hid := hahead id rfl
      refine (h.fetch hid).bind fun node hnode => ?_
      refine ih node.next (found.push id) (fun n hn => h.next_lt id node n hnode hn) ?_
      rw [Array.toList_push, List.forall_mem_append]
      exact ⟨hfound, by simpa using hid⟩

end LinksInside

end Forest

/-- The links and the slots that wait are inside the array. -/
structure Adoption.Inside (size : Nat) (adoption : Adoption) : Prop where
  links : adoption.forest.LinksInside size
  waiting_lt : ∀ k ∈ adoption.waiting, k < size

namespace Brood

variable {brood : Brood} {size : Nat} {id parent collector : NodeId} {node : Node}

/-- So is the run. -/
structure Inside (size : Nat) (brood : Brood) : Prop extends brood.adoption.Inside size where
  run_lt : ∀ k ∈ brood.run.toList, k < size

namespace Inside

/-- Passing a child keeps what is known: no link changes, and the child that
will wait is inside the array. -/
theorem pass (h : Inside size brood) (hid : id < size) :
    EndsIn (Inside size) Fault.IsInside (brood.pass id node) := by
  rw [Brood.pass]
  cases brood.length.add? node.length with
  | none => exact .error fun _ _ => Fault.noConfusion
  | some length =>
    refine .ok ⟨⟨h.links, List.forall_mem_cons.2 ⟨hid, h.waiting_lt⟩⟩, ?_⟩
    rw [Array.toList_push, List.forall_mem_append]
    exact ⟨h.run_lt, by simpa using hid⟩

/-- Only one link is changed by a collecting node, and it leads to that node.
Every slot that is asked for is in the run or is that node. -/
theorem adopt (h : Inside size brood) (hcollector : collector < size) :
    EndsIn (Inside size) Fault.IsInside (brood.adopt parent collector) := by
  -- Where the run is empty, the collecting node is looked up itself.
  have hfirst : brood.run[0]?.getD collector < size := by
    cases hrun : brood.run[0]? with
    | none => exact hcollector
    | some first => exact h.run_lt first (Array.mem_toList_iff.2 (Array.mem_of_getElem? hrun))
  rw [Brood.adopt]
  refine (h.links.fetch hfirst).bind fun first _ => ?_
  have hrun : ∀ id ∈ brood.run.toList,
      id < (brood.adoption.forest.cover collector first.offset brood.length).size := by
    rw [Forest.size_cover, h.links.size_eq]
    exact h.run_lt
  simp only [Forest.hang_eq hrun, except_ok_bind]
  refine .ok ⟨⟨⟨?size_eq, ?child_lt, ?next_lt⟩, h.waiting_lt⟩, by simpa using hcollector⟩
  case size_eq =>
    rw [Forest.leadWith, Array.size_modify, Forest.hung, Array.size_mapIdx, Forest.size_cover,
      h.links.size_eq]
  case child_lt =>
    intro k node c hnode hc
    rw [Forest.getElem?_adopt, Option.map_eq_some_iff] at hnode
    obtain ⟨node, hnode, rfl⟩ := hnode
    by_cases hk : k = parent
    · simp only [if_pos hk, Option.some.injEq] at hc
      exact hc ▸ hcollector
    · simp only [if_neg hk] at hc
      exact h.links.child_lt k node c hnode hc
  case next_lt =>
    intro k node n hnode hn
    rw [Forest.getElem?_adopt, Option.map_eq_some_iff] at hnode
    obtain ⟨node, hnode, rfl⟩ := hnode
    exact h.links.next_lt k node n hnode hn

/-- Either way, meeting a child keeps what is known. -/
theorem meet (h : Inside size brood) (hid : id < size) :
    EndsIn (Inside size) Fault.IsInside (Brood.meet parent brood id) := by
  rw [Brood.meet]
  refine (h.links.fetch hid).bind fun node _ => ?_
  split
  · exact h.adopt hid
  · exact h.pass hid

end Inside

end Brood

namespace Adoption

variable {adoption : Adoption} {size : Nat} {p : NodeId}

namespace Inside

/-- A visit keeps what is known, by induction on the children. They were listed
before the first was met, so what becomes of them on the way does not matter. -/
theorem visit (h : Inside size adoption) (hp : p < size) :
    EndsIn (Inside size) Fault.IsInside (adoption.visit p) := by
  rw [Adoption.visit]
  refine (h.links.fetch hp).bind fun node hnode => ?_
  refine (h.links.fetchRow _ _ _ (fun c => h.links.child_lt p node c hnode) (by simp)).bind
    fun children hchildren => ?_
  have hstart : Brood.Inside size ⟨adoption, #[], 0⟩ := ⟨h, by simp⟩
  rw [← Array.foldlM_toList]
  -- The children were listed before the first was met, so what they change is no matter here.
  refine (EndsIn.foldlM hstart fun id hid brood hbrood => hbrood.meet (hchildren id hid)).bind
    fun brood hbrood => ?_
  exact .ok hbrood.toInside

/-- No visit leaves the array, however often slots are visited. The induction is
on the fuel, and that may run out. -/
theorem run (h : Inside size adoption) (fuel : Nat) :
    EndsIn (Inside size) Fault.IsInside (Adoption.run fuel adoption) := by
  induction fuel generalizing adoption with
  | zero =>
    obtain ⟨forest, _ | ⟨p, waiting⟩, events⟩ := adoption
    · exact .ok h
    · -- To have no visit left is a fault of its own, so circles need no case here.
      exact .error fun _ _ => Fault.noConfusion
  | succ fuel ih =>
    obtain ⟨forest, _ | ⟨p, waiting⟩, events⟩ := adoption
    · exact .ok h
    · obtain ⟨hp, hwaiting⟩ := List.forall_mem_cons.1 h.waiting_lt
      have hrest : Inside size ⟨forest, waiting, events⟩ := ⟨h.links, hwaiting⟩
      exact (hrest.visit hp).bind fun adoption hadoption => ih hadoption

end Inside

end Adoption

namespace Forest

variable {forest : Forest}

/-- Where all parents are in the array, adoption asks for no slot outside it.
Cycles of parents do not matter for this. -/
theorem Closed.adoptRuns_endsIn (h : forest.Closed) :
    EndsIn (fun _ => True) Fault.IsInside forest.adoptRuns := by
  rw [adoptRuns]
  split
  · exact .ok trivial
  · rename_i hempty
    have hsize : 0 < forest.size := by
      simpa [Nat.pos_iff_ne_zero] using hempty
    have hstart : Adoption.Inside forest.size ⟨forest.familyLinked, [NodeId.root], #[]⟩ :=
      ⟨forest.linksInside_familyLinked, by simpa using hsize⟩
    rw [relink_eq h, except_ok_bind]
    exact (hstart.run _).bind fun adoption _ => .ok trivial

/-- Adoption gives up for a slot outside the array only if linking does, and for
the same one. -/
theorem adoptRuns_eq_outOfBounds_iff {size index : Nat} :
    forest.adoptRuns = .error (.indexOutOfBounds size index) ↔
      forest.relink = .error (.indexOutOfBounds size index) := by
  cases hrelink : forest.relink with
  | error fault =>
    -- Adoption does not link an empty array, but that has no parents either.
    have hne : forest ≠ #[] := by
      rintro rfl
      cases hrelink
    rw [adoptRuns, if_neg (by simpa using hne), hrelink, except_error_bind,
      Except.error.injEq, Except.error.injEq]
  | ok linked =>
    refine iff_of_false (fun hruns => ?_) (by rintro ⟨⟩)
    have hends := (relink_eq_ok_iff.1 hrelink).1.adoptRuns_endsIn
    rw [hruns] at hends
    exact hends.of_error size index rfl

/-- For every array:

* linking gives up exactly if the checks report a parent outside the array, and
  for that parent, whether it asks before it starts or finds out in the order of
  the array;
* for a slot outside the array adoption gives up in the same case, and for the
  same one;
* compaction, where no circle of parents goes through removed nodes alone, gives
  up exactly if some parent is outside the array: for the one that the climb
  comes to from the lowest slot from which a climb comes to any. -/
theorem faults_iff_parentOutside (forest : Forest) :
    forest.linkInOrder = forest.relink ∧
      (∀ fault, forest.relink = .error fault ↔
        ∃ k p, forest.inspect.answer = .error (.parentOutside k p) ∧
          fault = .indexOutOfBounds forest.size p) ∧
      (∀ size index, forest.adoptRuns = .error (.indexOutOfBounds size index) ↔
        ∃ k, forest.inspect.answer = .error (.parentOutside k index) ∧ size = forest.size) ∧
      (forest.NoRemovedCycle →
        ((∃ size index, forest.compact = .error (.indexOutOfBounds size index)) ↔
            ∃ k p, forest.parent? k = some p ∧ forest.size ≤ p) ∧
          ∀ fault, forest.compact = .error fault ↔
            ∃ s out, IsLeast {k | ∃ out, forest.LeadsOut k out} s ∧ forest.LeadsOut s out ∧
              fault = .indexOutOfBounds forest.size out) := by
  refine ⟨linkInOrder_eq_relink forest, fun fault => relink_eq_error_iff, fun size index => ?_,
    fun hcycle => ⟨?_, ?_⟩⟩
  · -- Linking names its own fault; here it is compared with one that is given.
    rw [adoptRuns_eq_outOfBounds_iff, relink_eq_error_iff]
    constructor
    · rintro ⟨k, p, hrejected, hfault⟩
      cases hfault
      exact ⟨k, hrejected, rfl⟩
    · rintro ⟨k, hrejected, rfl⟩
      exact ⟨k, index, hrejected, rfl⟩
  · -- Which slot is the lowest does not matter for whether there is a fault.
    rw [← exists_isLeast_leadsOut_iff]
    simp only [compact_eq_error_iff hcycle]
    constructor
    · rintro ⟨_, _, s, _, hs, _⟩
      exact ⟨s, hs⟩
    · rintro ⟨s, hs⟩
      obtain ⟨out, hout⟩ := hs.1
      exact ⟨forest.size, out, s, out, hs, hout, rfl⟩
  · exact fun fault => compact_eq_error_iff hcycle

/-- The parents of slots 2 and 3 are not in the array. Slot 2 is the first that
has such a parent, and slot 1 the first from which a climb comes to one, by way
of slot 3. -/
def frayed : Forest := #[
  Node.fresh "root" none 0,
  Node.fresh "under" (some 3) 0,
  Node.fresh "lost" (some 7) 0,
  { Node.fresh "gone" (some 9) 0 with removed := true }]

/-- The hypothesis holds of `frayed`. Linking and adoption give up for the
parent of slot 2, and compaction for that of slot 3, because the climb from slot
1 comes to it first. -/
theorem faults_iff_parentOutside_frayed :
    frayed.NoRemovedCycle ∧
      frayed.relink = .error (.indexOutOfBounds 4 7) ∧
      frayed.adoptRuns = .error (.indexOutOfBounds 4 7) ∧
      frayed.compact = .error (.indexOutOfBounds 4 9) := by
  have hcycle : frayed.NoRemovedCycle := by decide +kernel
  obtain ⟨-, hrelink, hadopt, hcompact⟩ := faults_iff_parentOutside frayed
  have hrejected : frayed.inspect.answer = .error (.parentOutside 2 7) := by decide +kernel
  have hout : frayed.LeadsOut 1 9 :=
    leadsOut_iff.2 ⟨3, rfl, Or.inr ⟨by decide, by decide,
      leadsOut_iff.2 ⟨9, rfl, Or.inl ⟨by decide, rfl⟩⟩⟩⟩
  have hleast : IsLeast {k | ∃ out, frayed.LeadsOut k out} 1 := by
    refine ⟨⟨9, hout⟩, ?_⟩
    rintro k ⟨out, hk⟩
    refine Nat.pos_of_ne_zero ?_
    rintro rfl
    obtain ⟨p, hp, -⟩ := leadsOut_iff.1 hk
    cases hp
  exact ⟨hcycle, (hrelink _).2 ⟨2, 7, hrejected, rfl⟩, (hadopt _ _).2 ⟨2, hrejected, rfl⟩,
    ((hcompact hcycle).2 _).2 ⟨1, 9, hleast, hout, rfl⟩⟩

end Forest

end ParseForest
