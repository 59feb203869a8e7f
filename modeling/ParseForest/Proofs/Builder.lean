import ParseForest.Builder
import ParseForest.Proofs.Validity

/-!
# `ParseForest.Proofs.Builder`: what a builder makes is a tree

The nodes of a builder are those that were added, in order, behind the root. So
the calls alone say what the array is like: `Builder.parent?_built_eq_some_iff`
reads the parents off them, `Builder.mem_perform` the ids that were answered,
and `Builder.collectsAt_built` the flags for collecting. Each comes from an
induction on the calls, the last one apart, over a lemma about one call.

If every node is added under the root or under a node added before
(`Builder.Grounded`), the array is a tree, because parents come first
(`Builder.isTree_built`). Of a tree the check asks only that collecting nodes
are no first children, which the calls can tell as well:
`Builder.inspect_built`.
-/

set_option autoImplicit false

namespace ParseForest.Builder

variable {calls : List Call} {k p : NodeId}
  {name : String} {offset length : ByteCount}

/-- The parent of the node that a call adds, if it adds one. -/
def Call.under? : Call → Option NodeId
  | .add parent _ _ _ => some parent
  | .markRemoved _ => none
  | .markCollecting _ => none

/-- The parents of the nodes that some calls add, in order. -/
def parents (calls : List Call) : List NodeId := calls.filterMap Call.under?

/-- The array that is finished when some calls were made. -/
def built (builder : Builder) (calls : List Call) : Forest := (builder.perform calls).2.finish

/-- Every node is added under the root or under a node of which the id was
answered before. -/
def Grounded (builder : Builder) (calls : List Call) : Prop :=
  ∀ before parent name offset length after,
    calls = before ++ .add parent name offset length :: after →
      parent = NodeId.root ∨ parent ∈ (builder.perform before).1

/-- A node is flagged as collecting after it was added. -/
def MarkedCollecting (builder : Builder) (calls : List Call) (id : NodeId) : Prop :=
  ∃ before after, calls = before ++ .markCollecting id :: after ∧ id ∈ (builder.perform before).1

/-- A node is added, and none was added under its parent before. -/
def AddedFirst (builder : Builder) (calls : List Call) (id : NodeId) : Prop :=
  ∃ before parent name offset length after,
    calls = before ++ .add parent name offset length :: after ∧
      id = ((builder.perform before).2.add parent name offset length).1 ∧
      ∀ call ∈ before, call.under? ≠ some parent

/-! ### One call -/

/-- The last call is made in the state that the others leave. The inductions on
calls take the last one off. -/
theorem perform_concat (builder : Builder) (calls : List Call) (c : Call) :
    builder.perform (calls ++ [c]) = call (builder.perform calls) c := by
  unfold perform
  rw [List.foldl_append]
  rfl

/-- A call changes no parent of a node, and appends one for a node that it
adds. -/
theorem map_parent_call (state : Array NodeId × Builder) (c : Call) :
    (call state c).2.forest.toList.map Node.parent =
      state.2.forest.toList.map Node.parent ++ c.under?.toList.map some := by
  -- Flags can be set anywhere, also on a node that is not there.
  have hflag : ∀ (id : NodeId) (f : Node → Node), (∀ node, (f node).parent = node.parent) →
      (state.2.forest.modify id f).toList.map Node.parent =
        state.2.forest.toList.map Node.parent := by
    intro id f hf
    refine List.ext_getElem? fun k => ?_
    rw [List.getElem?_map, List.getElem?_map, Array.getElem?_toList, Array.getElem?_toList,
      Array.getElem?_modify]
    split
    · rw [Option.map_map]
      exact congrArg (Option.map · _) (funext hf)
    · rfl
  cases c with
  | add parent name offset length =>
    show (state.2.forest.push _).toList.map Node.parent = _
    rw [Array.toList_push, List.map_append]
    rfl
  | markRemoved id =>
    show (state.2.forest.modify id _).toList.map Node.parent = _ ++ []
    rw [List.append_nil]
    exact hflag id _ fun _ => rfl
  | markCollecting id =>
    show (state.2.forest.modify id _).toList.map Node.parent = _ ++ []
    rw [List.append_nil]
    exact hflag id _ fun _ => rfl

/-- A call answers with the next slot if it adds a node. -/
theorem mem_call (state : Array NodeId × Builder) (c : Call) :
    k ∈ (call state c).1 ↔ k ∈ state.1 ∨ (c.under?.isSome ∧ k = state.2.forest.size) := by
  cases c with
  | add parent name offset length =>
    show k ∈ state.1.push state.2.forest.size ↔ _
    rw [Array.mem_push]
    simp [Call.under?]
  | markRemoved id => simp [call, Call.under?]
  | markCollecting id => simp [call, Call.under?]

/-- A call makes a node collect if it flags it, and the node is there. A node
that is added does not collect at first. -/
theorem collectsAt_call (state : Array NodeId × Builder) (c : Call) :
    (call state c).2.forest.collectsAt k = true ↔
      state.2.forest.collectsAt k = true ∨ (c = .markCollecting k ∧ k < state.2.forest.size) := by
  unfold Forest.collectsAt
  cases c with
  | add parent name offset length =>
    show (state.2.forest.push _)[k]?.any Node.collects = true ↔ _
    rw [Array.getElem?_push]
    split
    · rename_i hk
      simp [hk, matched, Node.fresh]
    · simp
  | markRemoved id =>
    show (state.2.forest.modify id _)[k]?.any Node.collects = true ↔ _
    rw [Array.getElem?_modify]
    split
    · cases state.2.forest[k]? <;> simp
    · simp
  | markCollecting id =>
    show (state.2.forest.modify id _)[k]?.any Node.collects = true ↔ _
    rw [Array.getElem?_modify]
    by_cases hk : id = k
    · subst hk
      rcases Nat.lt_or_ge id state.2.forest.size with hlt | hge
      · simp [hlt]
      · simp [Nat.not_lt_of_ge hge]
    · simp [hk]

/-! ### Some calls -/

/-- A call names a parent exactly if it adds a node there. -/
theorem Call.under?_eq_some_iff {c : Call} :
    c.under? = some p ↔ ∃ name offset length, c = .add p name offset length := by
  cases c <;> simp [Call.under?]

/-- Call by call, a node is added under the root or under one of which the id
was answered. This can be decided. -/
theorem grounded_iff {builder : Builder} :
    builder.Grounded calls ↔
      ∀ i < calls.length, ∀ p ∈ calls[i]?.bind Call.under?,
        p = NodeId.root ∨ p ∈ (builder.perform (calls.take i)).1 := by
  constructor
  · intro h i hi p hp
    rw [Option.mem_def, List.getElem?_eq_getElem hi, Option.bind_some] at hp
    obtain ⟨name, offset, length, hadd⟩ := Call.under?_eq_some_iff.1 hp
    refine h (calls.take i) p name offset length (calls.drop (i + 1)) ?_
    rw [← hadd, ← List.drop_eq_getElem_cons hi, List.take_append_drop]
  · rintro h before p name offset length after rfl
    have hbefore := h before.length (by simp) p (by simp [Call.under?])
    rwa [List.take_left] at hbefore

instance (builder : Builder) (calls : List Call) : Decidable (builder.Grounded calls) :=
  decidable_of_iff _ grounded_iff.symm

/-- The parents named by calls one behind the other. -/
theorem parents_append (calls calls' : List Call) :
    parents (calls ++ calls') = parents calls ++ parents calls' :=
  List.filterMap_append

/-- What the first call names comes first. -/
theorem parents_cons (c : Call) (calls : List Call) :
    parents (c :: calls) = c.under?.toList ++ parents calls := by
  unfold parents
  cases hc : c.under? <;> simp [hc]

/-- What the last call names comes last. -/
theorem parents_concat (calls : List Call) (c : Call) :
    parents (calls ++ [c]) = parents calls ++ c.under?.toList := by
  rw [parents_append, parents_cons]
  exact congrArg _ (List.append_nil _)

/-- A parent is named if some call names it. -/
theorem mem_parents : p ∈ parents calls ↔ ∃ c ∈ calls, c.under? = some p :=
  List.mem_filterMap

/-- The call that adds a node, and the calls before it, of which as many add
nodes as there are before this one. The induction is on the calls, from the
first on. -/
theorem exists_add_of_getElem?_parents {i : Nat} (h : (parents calls)[i]? = some p) :
    ∃ before name offset length after,
      calls = before ++ .add p name offset length :: after ∧ (parents before).length = i := by
  induction calls generalizing i with
  | nil => cases h
  | cons c calls ih =>
    rw [parents_cons] at h
    cases hc : c.under? with
    | none =>
      rw [hc] at h
      obtain ⟨before, name, offset, length, after, rfl, hlength⟩ := ih h
      refine ⟨c :: before, name, offset, length, after, rfl, ?_⟩
      rw [parents_cons, hc]
      exact hlength
    | some q =>
      rw [hc] at h
      cases i with
      | zero =>
        -- The first call is the one, and there are none before it.
        obtain rfl : q = p := Option.some.inj h
        obtain ⟨name, offset, length, rfl⟩ := Call.under?_eq_some_iff.1 hc
        exact ⟨[], name, offset, length, calls, rfl, rfl⟩
      | succ i =>
        obtain ⟨before, name, offset, length, after, rfl, hlength⟩ := ih h
        refine ⟨c :: before, name, offset, length, after, rfl, ?_⟩
        rw [parents_cons, hc]
        show (parents before).length + 1 = i + 1
        rw [hlength]

/-- The root has no parent, and the other nodes have those that they were added
under. -/
theorem map_parent_built (name : String) (offset length : ByteCount) (calls : List Call) :
    ((start name offset length).built calls).toList.map Node.parent =
      none :: (parents calls).map some := by
  unfold built finish
  induction calls using List.reverseRecOn with
  | nil => rfl
  | append_singleton calls c ih =>
    rw [perform_concat, map_parent_call, ih, parents_concat, List.map_append]
    rfl

/-- There is one node for each call that adds one, and the root. -/
theorem size_built (name : String) (offset length : ByteCount) (calls : List Call) :
    ((start name offset length).built calls).size = (parents calls).length + 1 := by
  have hlength := congrArg List.length (map_parent_built name offset length calls)
  simpa using hlength

/-- Slot by slot, the parents behind the root are those that nodes were added
under. -/
theorem parent?_built_eq_some_iff :
    ((start name offset length).built calls).parent? k = some p ↔
      ∃ i, k = i + 1 ∧ (parents calls)[i]? = some p := by
  have hparent : ((start name offset length).built calls).parent? k =
      (none :: (parents calls).map some)[k]?.join := by
    rw [← map_parent_built name offset length, List.getElem?_map, Array.getElem?_toList,
      Forest.parent?]
    cases ((start name offset length).built calls)[k]? <;> rfl
  rw [hparent]
  cases k with
  | zero => simp
  | succ i => simp [Option.join_eq_some_iff]

/-- The ids answered are those of all nodes but the root. -/
theorem mem_perform (name : String) (offset length : ByteCount) (calls : List Call) :
    k ∈ ((start name offset length).perform calls).1 ↔
      k ≠ NodeId.root ∧ k < ((start name offset length).built calls).size := by
  induction calls using List.reverseRecOn with
  | nil =>
    show k ∈ (#[] : Array NodeId) ↔ k ≠ 0 ∧ k < 1
    simp
  | append_singleton calls c ih =>
    have hsize : ((start name offset length).perform calls).2.forest.size =
        (parents calls).length + 1 := size_built name offset length calls
    rw [perform_concat, mem_call, ih, hsize, size_built, size_built, parents_concat,
      List.length_append]
    cases c.under? with
    | none => simp
    | some p =>
      have hnext : ∀ n k : Nat, k ≠ 0 ∧ k < n + 1 ∨ k = n + 1 ↔ k ≠ 0 ∧ k < n + 1 + 1 := by
        omega
      simpa using hnext (parents calls).length k

/-- The last of some calls apart, a call is made as one of the others or is the
last itself. -/
theorem exists_split_concat {c d : Call} {P : List Call → Prop} :
    (∃ before after, calls ++ [c] = before ++ d :: after ∧ P before) ↔
      (∃ before after, calls = before ++ d :: after ∧ P before) ∨ c = d ∧ P calls := by
  constructor
  · rintro ⟨before, after, heq, hP⟩
    rcases List.eq_nil_or_concat after with rfl | ⟨after, e, rfl⟩
    · obtain ⟨rfl, hcd⟩ := List.append_inj' heq rfl
      exact Or.inr ⟨List.singleton_inj.1 hcd, hP⟩
    · rw [List.concat_eq_append, ← List.cons_append, ← List.append_assoc] at heq
      obtain ⟨rfl, -⟩ := List.append_inj' heq rfl
      exact Or.inl ⟨before, after, rfl, hP⟩
  · rintro (⟨before, after, rfl, hP⟩ | ⟨rfl, hP⟩)
    · exact ⟨before, after ++ [c], by simp, hP⟩
    · exact ⟨calls, [], rfl, hP⟩

/-- The root apart, the nodes that collect are those that were flagged after
they were added. A flag for an id that is not there yet is lost. -/
theorem collectsAt_built (name : String) (offset length : ByteCount) (calls : List Call)
    (hk : k ≠ NodeId.root) :
    ((start name offset length).built calls).collectsAt k = true ↔
      (start name offset length).MarkedCollecting calls k := by
  unfold MarkedCollecting built finish
  induction calls using List.reverseRecOn with
  | nil =>
    have hplain : (start name offset length).forest.collectsAt k = false := by
      unfold Forest.collectsAt
      rw [show (start name offset length).forest = #[matched name none offset length] from rfl]
      have hge : 1 ≤ k := Nat.pos_of_ne_zero hk
      rw [Array.getElem?_eq_none hge]
      rfl
    show (start name offset length).forest.collectsAt k = true ↔ _
    simp [hplain]
  | append_singleton calls c ih =>
    rw [perform_concat, collectsAt_call, ih, exists_split_concat, mem_perform]
    simp [hk, built, finish]

/-! ### The array -/

/-- A node comes behind the one that it was added under. That one was there when
it was added. -/
theorem parent_lt_of_grounded (h : (start name offset length).Grounded calls)
    (hp : ((start name offset length).built calls).parent? k = some p) : p < k := by
  obtain ⟨i, rfl, hi⟩ := parent?_built_eq_some_iff.1 hp
  obtain ⟨before, name', offset', length', after, hcalls, hbefore⟩ :=
    exists_add_of_getElem?_parents hi
  rcases h before p name' offset' length' after hcalls with rfl | hmem
  · exact Nat.succ_pos i
  · -- The id was answered when there were no more nodes than up to this one.
    have hlt := ((mem_perform name offset length before).1 hmem).2
    rwa [size_built, hbefore] at hlt

/-- Where every node is added under one that is there, a tree is built: the
parents are in the array, they come first, and the root alone has none. -/
theorem isTree_built (h : (start name offset length).Grounded calls) :
    ((start name offset length).built calls).IsTree := by
  have hroot : ((start name offset length).built calls).parent? NodeId.root = none := by
    rw [Option.eq_none_iff_forall_ne_some]
    intro p hp
    obtain ⟨i, hi, -⟩ := parent?_built_eq_some_iff.1 hp
    cases hi
  refine Forest.IsTree.of_parents_before hroot fun k hk hne => ?_
  obtain ⟨i, rfl⟩ := Nat.exists_eq_succ_of_ne_zero hne
  rw [size_built] at hk
  have hi : (parents calls)[i]? = some (parents calls)[i] :=
    List.getElem?_eq_getElem (Nat.lt_of_succ_lt_succ hk)
  have hp : ((start name offset length).built calls).parent? (i + 1) = some (parents calls)[i] :=
    parent?_built_eq_some_iff.2 ⟨i, rfl, hi⟩
  exact ⟨_, parent_lt_of_grounded h hp, hp⟩

/-- A node is the first that was added under its parent exactly if no lower slot
has the same parent. The id answered is the size before the call, which is how
many nodes were added and the root. -/
theorem addedFirst_iff :
    (start name offset length).AddedFirst calls k ↔
      ∃ p, ((start name offset length).built calls).parent? k = some p ∧
        ∀ d < k, ((start name offset length).built calls).parent? d ≠ some p := by
  -- The id answered is the size before the call, which is how many nodes were added and the root.
  have hid : ∀ before p name' offset' length',
      (((start name offset length).perform before).2.add p name' offset' length').1 =
        (parents before).length + 1 :=
    fun before _ _ _ _ => size_built name offset length before
  simp only [ne_eq, parent?_built_eq_some_iff]
  constructor
  · rintro ⟨before, p, name', offset', length', after, rfl, rfl, hfirst⟩
    have hparents : parents (before ++ .add p name' offset' length' :: after) =
        parents before ++ p :: parents after := by
      rw [parents_append, parents_cons]
      rfl
    rw [hid, hparents]
    refine ⟨p, ⟨_, rfl, by simp⟩, ?_⟩
    rintro d hd ⟨i, rfl, hi⟩
    rw [List.getElem?_append_left (Nat.lt_of_succ_lt_succ hd)] at hi
    obtain ⟨c, hc, hunder⟩ := mem_parents.1 (List.mem_of_getElem? hi)
    exact hfirst c hc hunder
  · rintro ⟨p, ⟨i, rfl, hi⟩, hfirst⟩
    obtain ⟨before, name', offset', length', after, rfl, rfl⟩ := exists_add_of_getElem?_parents hi
    refine ⟨before, p, name', offset', length', after, rfl,
      (hid before p name' offset' length').symm, fun c hc hunder => ?_⟩
    obtain ⟨j, hj, hget⟩ := List.getElem_of_mem (mem_parents.2 ⟨c, hc, hunder⟩)
    refine hfirst (j + 1) (Nat.succ_lt_succ hj) ⟨j, rfl, ?_⟩
    rw [parents_append, List.getElem?_append_left hj, List.getElem?_eq_getElem hj, hget]

/-- A collecting node is the first child of its parent exactly if it was flagged
as collecting after it was added, and was the first node added under its
parent. -/
theorem collectsFirst_iff :
    ((start name offset length).built calls).CollectsFirst k ↔
      (start name offset length).MarkedCollecting calls k ∧
        (start name offset length).AddedFirst calls k := by
  rw [addedFirst_iff]
  refine and_congr_left ?_
  rintro ⟨p, hp, -⟩
  obtain ⟨i, rfl, -⟩ := parent?_built_eq_some_iff.1 hp
  exact collectsAt_built name offset length calls (Nat.succ_ne_zero i)

/-- What is built by adding every node under the root or under a node added
before, and by flagging nodes in whatever order, the check accepts, unless some
node was flagged as collecting that was the first to be added under its parent.
Then the answer names the lowest such node. -/
theorem inspect_built (name : String) (offset length : ByteCount) (calls : List Call)
    (h : (start name offset length).Grounded calls) :
    (((start name offset length).built calls).inspect.answer = .ok () ∧
        ∀ k, ¬ ((start name offset length).MarkedCollecting calls k ∧
          (start name offset length).AddedFirst calls k)) ∨
      ∃ k, ((start name offset length).MarkedCollecting calls k ∧
          (start name offset length).AddedFirst calls k) ∧
        (∀ j < k, ¬ ((start name offset length).MarkedCollecting calls j ∧
          (start name offset length).AddedFirst calls j)) ∧
        ((start name offset length).built calls).inspect.answer = .error (.nothingBefore k) := by
  simp only [← collectsFirst_iff]
  rw [Forest.inspect_answer]
  exact (isTree_built h).check_cases

/-- A word and its first letter, which is flagged as collecting once before it
is added and once after. The root and a node that is never added are flagged
too, and so is a node with a sibling before it. -/
def flaggedEarlyAndLate : List Call := [
  .markCollecting 2,
  .add 0 "word" 0 4,
  .markRemoved 1,
  .add 1 "letter" 0 1,
  .markCollecting 0,
  .add 0 "all" 4 0,
  .markCollecting 3,
  .markCollecting 2,
  .markCollecting 9]

/-- The hypothesis holds of `flaggedEarlyAndLate`. The letter was flagged in
vain before it was added, and then once more, and it is the one that is
named. -/
theorem inspect_built_flaggedEarlyAndLate :
    (start "text" 0 4).Grounded flaggedEarlyAndLate ∧
      (start "text" 0 4).MarkedCollecting flaggedEarlyAndLate 2 ∧
      (start "text" 0 4).AddedFirst flaggedEarlyAndLate 2 ∧
      ((start "text" 0 4).built flaggedEarlyAndLate).inspect.answer =
        .error (.nothingBefore 2) := by
  have hgrounded : (start "text" 0 4).Grounded flaggedEarlyAndLate := by decide +kernel
  have hanswer : ((start "text" 0 4).built flaggedEarlyAndLate).inspect.answer =
      .error (.nothingBefore 2) := by decide +kernel
  rcases inspect_built "text" 0 4 flaggedEarlyAndLate hgrounded with
    ⟨hok, -⟩ | ⟨k, ⟨hmarked, hfirst⟩, -, herror⟩
  · rw [hok] at hanswer
    cases hanswer
  · rw [hanswer] at herror
    cases herror
    exact ⟨hgrounded, hmarked, hfirst, hanswer⟩

end ParseForest.Builder
