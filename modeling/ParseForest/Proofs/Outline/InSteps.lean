import ParseForest.Proofs.Fallible
import ParseForest.Proofs.Outline

/-!
# `ParseForest.Proofs.Outline.InSteps`: the outline from a list of nodes to enter

`Outline.write` keeps the place in every group that is open, and whether
something was written in it. An outline can also be written from a list of
steps, with one flag for all groups: `Outline.takeSteps` enters node after node,
and at a node with a child link it puts all children of the node in front of
what is left to do, followed by the step that closes the group. Opening a group
sets the flag, and whatever is written after that clears it.

The steps have no bound of their own, so they may go on for ever where `child`
and `next` lead around in a circle, while `Outline.write` counts links and cuts
the text off. This is the only difference. A run of the steps that comes to
an end has followed all links to their ends (`Forest.exists_reach_of_ok`), and
then no way down and along is longer than there are nodes
(`Forest.Reach.le_size`). So the links that `Outline.write` may follow are
enough, and frame by frame it does what the steps do (`Forest.Around.write_eq`).

`Forest.outlineInSteps_cases` says of every array that the steps end with the
outline or do not end, and `Forest.exists_outlineInSteps_eq` that they end if
the links are those that the parents imply.
-/

set_option autoImplicit false

namespace ParseForest

/-- The nodes that a walk finds, behind those found before; all of them are
listed before any is put to use. More than `fuel` are a fault. -/
def Walk.collect {σ : Type} [Walk σ] (forest : Forest) (fuel : Nat) (walk : σ)
    (found : Array NodeId) : Except Fault (Array NodeId) :=
  match pull forest walk with
  | (none, _) => .ok found
  | (some id, rest) =>
    match fuel with
    | 0 => .error .endless
    | fuel + 1 => collect forest fuel rest (found.push id)

namespace Outline

/-- Something to be done for an outline. -/
inductive Step
  /-- To write a node, and what is under it. -/
  | enter (id : NodeId)
  /-- To end the children of a node. -/
  | close
deriving DecidableEq, Repr

/-- Takes the steps one after another; `first` if a group was opened and nothing
written since, as at the start. More than `fuel` steps are a fault. -/
def takeSteps (forest : Forest) :
    (fuel : Nat) → List Step → (first : Bool) → (written : String) → Except Fault String
  | _, [], _, written => .ok written
  | 0, _ :: _, _, _ => .error .endless
  | fuel + 1, .close :: steps, _, written => takeSteps forest fuel steps false (written ++ ")")
  | fuel + 1, .enter id :: steps, first, written =>
    match forest[id]? with
    | none => takeSteps forest fuel steps first written
    | some node =>
      let written := (if first then written else written ++ " ") ++ node.name
      match node.child with
      | none => takeSteps forest fuel steps false written
      | some _ => do
        let children ← Walk.collect forest forest.size (forest.walkChildren id) #[]
        takeSteps forest fuel (children.toList.map .enter ++ .close :: steps) true (written ++ "(")

end Outline

/-- The outline of a forest, in at most `fuel` steps. -/
def Forest.outlineInSteps (forest : Forest) (fuel : Nat) : Except Fault String := do
  let top ← Walk.collect forest forest.size forest.walkTop #[]
  Outline.takeSteps forest fuel (top.toList.map .enter) true ""

/-! ### Lists of what is found -/

namespace Walk

variable {σ : Type} [Walk σ] {forest : Forest} {walk : σ} {ids : List NodeId}

/-- A walk that ends is listed from end to end, if no more nodes are found than
are allowed for. The induction is on what is found. -/
theorem Yields.collect_eq (h : Yields forest walk ids) {fuel : Nat} (hfuel : ids.length ≤ fuel)
    (found : Array NodeId) : collect forest fuel walk found = .ok (found ++ ids.toArray) := by
  induction h generalizing fuel found with
  | @nil walk hnone =>
    unfold collect
    split
    · simp
    · simp_all
  | @cons walk rest id ids hpull _ ih =>
    cases fuel with
    | zero => exact absurd hfuel (Nat.not_succ_le_zero _)
    | succ fuel =>
      unfold collect
      rw [hpull]
      show collect forest fuel rest (found.push id) = _
      rw [ih (Nat.le_of_succ_le_succ hfuel)]
      simp

/-- If listing a walk comes to an end, so does the walk, and what is listed is
what it finds. -/
theorem yields_of_collect {fuel : Nat} {found all : Array NodeId}
    (h : collect forest fuel walk found = .ok all) :
    ∃ ids, Yields forest walk ids ∧ all = found ++ ids.toArray := by
  induction fuel generalizing walk found with
  | zero =>
    unfold collect at h
    split at h
    · cases h
      exact ⟨[], .nil (by simp_all), by simp⟩
    · cases h
  | succ fuel ih =>
    unfold collect at h
    split at h
    · cases h
      exact ⟨[], .nil (by simp_all), by simp⟩
    · rename_i id rest hpull
      obtain ⟨ids, hids, rfl⟩ := ih h
      exact ⟨id :: ids, .cons hpull hids, by simp⟩

end Walk

namespace Forest

open Outline (Step takeSteps Frame)

variable {forest : Forest} {ahead : Option NodeId} {ids : List NodeId} {steps : List Step}
  {frames : List Frame} {id : NodeId} {links m n fuel : Nat} {first : Bool} {written text : String}

/-- From a link, the walk along siblings finds some nodes and ends. -/
def Siblings (forest : Forest) (ahead : Option NodeId) (ids : List NodeId) : Prop :=
  Walk.Yields forest (⟨ahead⟩ : SiblingWalk) ids

/-- Nothing is found if the link leads to no node of the array. The walk along
siblings does not tell a link out of the array from none. -/
theorem siblings_nil_iff : forest.Siblings ahead [] ↔ ahead.bind (forest[·]?) = none := by
  constructor
  · intro h
    cases h with
    | nil hnone =>
      change (SiblingWalk.pull forest ⟨ahead⟩).1 = none at hnone
      cases ahead with
      | none => rfl
      | some id =>
        cases hnode : forest[id]? with
        | none => simp [hnode]
        | some node => simp [SiblingWalk.pull, hnode] at hnone
  · intro h
    refine .nil ?_
    show (SiblingWalk.pull forest ⟨ahead⟩).1 = none
    cases ahead with
    | none => rfl
    | some id =>
      rw [Option.bind_some] at h
      simp [SiblingWalk.pull, h]

/-- What is found first is the node that the link leads to, and then what its
next sibling leads to. -/
theorem siblings_cons_iff :
    forest.Siblings ahead (id :: ids) ↔
      ahead = some id ∧ ∃ node, forest[id]? = some node ∧ forest.Siblings node.next ids := by
  constructor
  · intro h
    cases h with
    | @cons _ rest _ _ hpull hrest =>
      change SiblingWalk.pull forest ⟨ahead⟩ = (some id, rest) at hpull
      cases ahead with
      | none => simp [SiblingWalk.pull] at hpull
      | some start =>
        cases hnode : forest[start]? with
        | none => simp [SiblingWalk.pull, hnode] at hpull
        | some node =>
          simp only [SiblingWalk.pull, hnode, Prod.mk.injEq, Option.some.injEq] at hpull
          obtain ⟨rfl, rfl⟩ := hpull
          exact ⟨rfl, node, hnode, hrest⟩
  · rintro ⟨rfl, node, hnode, hrest⟩
    refine .cons ?_ hrest
    show SiblingWalk.pull forest ⟨some id⟩ = _
    simp [SiblingWalk.pull, hnode]

/-! ### How far links lead -/

/-- Everything that a link leads to is met over at most so many links, down and
along, and all these ways come to an end. -/
inductive Reach (forest : Forest) : Option NodeId → Nat → Prop
  | absent {ahead : Option NodeId} : ahead.bind (forest[·]?) = none → Reach forest ahead 0
  | node {id : NodeId} {node : Node} {m n : Nat} :
    forest[id]? = some node → Reach forest node.child m → Reach forest node.next n →
      Reach forest (some id) (max m n + 1)

namespace Reach

/-- A link to a node leads one node further than the links of the node. -/
theorem exists_of_node {node : Node} (h : forest.Reach (some id) n)
    (hnode : forest[id]? = some node) :
    ∃ below behind, n = max below behind + 1 ∧ forest.Reach node.child below ∧
      forest.Reach node.next behind := by
  cases h with
  | absent hnone => simp [hnode] at hnone
  | node hnode' hchild hnext =>
    rw [hnode] at hnode'
    cases hnode'
    exact ⟨_, _, rfl, hchild, hnext⟩

/-- A link leads no further one time than another. -/
theorem unique (h : forest.Reach ahead m) (h' : forest.Reach ahead n) : m = n := by
  induction h generalizing n with
  | absent hnone =>
    cases h' with
    | absent _ => rfl
    | node hnode _ _ => simp [hnode] at hnone
  | node hnode _ _ ihChild ihNext =>
    obtain ⟨below, behind, rfl, hchild, hnext⟩ := h'.exists_of_node hnode
    rw [ihChild hchild, ihNext hnext]

/-- On the longest way from a link, as many different nodes are met: each leads
less far than the one before it. -/
theorem exists_way (h : forest.Reach ahead n) :
    ∃ way : List NodeId, way.length = n ∧ way.Nodup ∧
      ∀ k ∈ way, k < forest.size ∧ ∃ m ≤ n, forest.Reach (some k) m := by
  induction h with
  | absent _ => exact ⟨[], rfl, List.nodup_nil, by simp⟩
  | @node id node m n hnode hchild hnext ihChild ihNext =>
    have hself : forest.Reach (some id) (max m n + 1) := .node hnode hchild hnext
    have hid : id < forest.size := (Array.getElem?_eq_some_iff.1 hnode).1
    -- The longer of the two ways on is the one to go.
    obtain ⟨way, hlength, hnodup, hway⟩ : ∃ way : List NodeId, way.length = max m n ∧ way.Nodup ∧
        ∀ k ∈ way, k < forest.size ∧ ∃ j ≤ max m n, forest.Reach (some k) j := by
      rcases Nat.le_total m n with hle | hle
      · rw [Nat.max_eq_right hle]
        exact ihNext
      · rw [Nat.max_eq_left hle]
        exact ihChild
    refine ⟨id :: way, by rw [List.length_cons, hlength], ?_, ?_⟩
    · refine List.nodup_cons.2 ⟨fun hmem => ?_, hnodup⟩
      -- It leads as far as the whole way from here, but from behind here less far.
      obtain ⟨-, j, hj, hreach⟩ := hway id hmem
      have := hreach.unique hself
      omega
    · intro k hk
      rcases List.mem_cons.1 hk with rfl | hk
      · exact ⟨hid, _, Nat.le_refl _, hself⟩
      · obtain ⟨hlt, j, hj, hreach⟩ := hway k hk
        exact ⟨hlt, j, Nat.le_succ_of_le hj, hreach⟩

/-- So links that come to an end do so over no more nodes than there are. This
is what the bound of `Outline.write` rests on. -/
theorem le_size (h : forest.Reach ahead n) : n ≤ forest.size := by
  obtain ⟨way, rfl, hnodup, hway⟩ := h.exists_way
  exact length_le_size hnodup fun k hk => (hway k hk).1

/-- Along siblings alone it is no further than down and along. -/
theorem exists_siblings (h : forest.Reach ahead n) :
    ∃ ids, forest.Siblings ahead ids ∧ ids.length ≤ n := by
  induction h with
  | absent hnone => exact ⟨[], siblings_nil_iff.2 hnone, Nat.le_refl 0⟩
  | @node id node m n hnode _ _ _ ihNext =>
    obtain ⟨ids, hids, hlength⟩ := ihNext
    refine ⟨id :: ids, siblings_cons_iff.2 ⟨rfl, node, hnode, hids⟩, ?_⟩
    rw [List.length_cons]
    omega

/-- All siblings from a link on can be listed, if all ways from there come to
an end. -/
theorem collect_eq (h : forest.Reach ahead n) :
    ∃ ids, forest.Siblings ahead ids ∧
      Walk.collect forest forest.size (⟨ahead⟩ : SiblingWalk) #[] = .ok ids.toArray := by
  obtain ⟨ids, hids, hlength⟩ := h.exists_siblings
  have hcollect := Walk.Yields.collect_eq hids (Nat.le_trans hlength h.le_size) #[]
  rw [Array.empty_append] at hcollect
  exact ⟨ids, hids, hcollect⟩

end Reach

/-- Links to a row of trees lead as far as the trees do. -/
theorem Grown.reach {grove : Grove NodeId} (h : forest.Grown ahead grove) :
    forest.Reach ahead grove.reach := by
  induction h with
  | nil => exact .absent rfl
  | cons hnode _ _ ihBelow ihBehind => exact .node hnode ihBelow ihBehind

/-! ### Runs that end -/

/-- The children of a node, listed, are what the walk from its child link
finds. -/
theorem walkChildren_eq {node : Node} (hnode : forest[id]? = some node) :
    forest.walkChildren id = ⟨node.child⟩ := by
  rw [walkChildren, hnode]
  rfl

/-- A node without a child link is written, and the steps behind it follow. -/
theorem takeSteps_leaf {node : Node} (hnode : forest[id]? = some node)
    (hchild : node.child = none) :
    takeSteps forest (fuel + 1) ((id :: ids).map .enter ++ steps) first written =
      takeSteps forest fuel (ids.map .enter ++ steps) false
        ((if first then written else written ++ " ") ++ node.name) := by
  rw [List.map_cons, List.cons_append, takeSteps, hnode]
  simp only [hchild]

/-- A node with a child link is written, and its children follow. Behind them
come the end of their group and the siblings of the node. -/
theorem takeSteps_group {node : Node} {child : NodeId} (hnode : forest[id]? = some node)
    (hchild : node.child = some child) :
    takeSteps forest (fuel + 1) ((id :: ids).map .enter ++ steps) first written =
      Walk.collect forest forest.size (⟨some child⟩ : SiblingWalk) #[] >>= fun children =>
        takeSteps forest fuel
          (children.toList.map .enter ++ .close :: (ids.map .enter ++ steps)) true
          ((if first then written else written ++ " ") ++ node.name ++ "(") := by
  rw [List.map_cons, List.cons_append, takeSteps, hnode]
  simp only [hchild, walkChildren_eq hnode]

/-- If the steps come to an end, so did what was done for the siblings in front
of them: all that these lead to was met, and the other steps were taken
afterwards. The induction is on the fuel, for the children of a node take the
place of the node. -/
theorem exists_reach_of_ok (hids : forest.Siblings ahead ids)
    (hrun : takeSteps forest fuel (ids.map .enter ++ steps) first written = .ok text) :
    (∃ n, forest.Reach ahead n) ∧
      ∃ fuel' ≤ fuel, ∃ first' written',
        takeSteps forest fuel' steps first' written' = .ok text := by
  induction fuel using Nat.strongRecOn generalizing ahead ids steps first written with
  | ind fuel ih =>
    cases ids with
    | nil =>
      have hreach : forest.Reach ahead 0 := .absent (siblings_nil_iff.1 hids)
      exact ⟨⟨0, hreach⟩, fuel, Nat.le_refl _, first, written, hrun⟩
    | cons id ids =>
      obtain ⟨rfl, node, hnode, hnext⟩ := siblings_cons_iff.1 hids
      cases fuel with
      | zero => cases hrun
      | succ fuel =>
        cases hchild : node.child with
        | none =>
          rw [takeSteps_leaf hnode hchild] at hrun
          obtain ⟨⟨n, hreach⟩, fuel', hle, hrest⟩ := ih fuel (Nat.lt_succ_self _) hnext hrun
          refine ⟨⟨max 0 n + 1, .node hnode ?_ hreach⟩, fuel', Nat.le_succ_of_le hle, hrest⟩
          rw [hchild]
          exact .absent rfl
        | some child =>
          rw [takeSteps_group hnode hchild] at hrun
          obtain ⟨children, hcollect, hrun⟩ := exists_of_bind_eq_ok hrun
          obtain ⟨below, hbelow, rfl⟩ := Walk.yields_of_collect hcollect
          -- First the children come to their end, then the group does, then the other siblings.
          obtain ⟨⟨m, hreachChild⟩, fuel', hle, first', written', hclose⟩ :=
            ih fuel (Nat.lt_succ_self _) hbelow (by simpa using hrun)
          cases fuel' with
          | zero => cases hclose
          | succ fuel' =>
            rw [takeSteps] at hclose
            obtain ⟨⟨n, hreachNext⟩, fuel'', hle', hrest⟩ := ih fuel' (by omega) hnext hclose
            refine ⟨⟨max m n + 1, .node hnode ?_ hreachNext⟩, fuel'', by omega, hrest⟩
            rw [hchild]
            exact hreachChild

/-- Steps for siblings from which all links come to an end can be taken, if what
follows them can. How many steps it takes is not counted; it is enough that some
number will do. -/
theorem Reach.exists_takeSteps (h : forest.Reach ahead n) (hids : forest.Siblings ahead ids)
    (hsteps : ∀ first written, ∃ fuel text, takeSteps forest fuel steps first written = .ok text)
    (first : Bool) (written : String) :
    ∃ fuel text, takeSteps forest fuel (ids.map .enter ++ steps) first written = .ok text := by
  induction h generalizing ids steps first written with
  | absent hnone =>
    cases ids with
    | nil => exact hsteps first written
    | cons id ids =>
      obtain ⟨rfl, node, hnode, -⟩ := siblings_cons_iff.1 hids
      simp [hnode] at hnone
  | @node id node m n hnode hreachChild _ ihChild ihNext =>
    cases ids with
    | nil =>
      have hnone := siblings_nil_iff.1 hids
      simp [hnode] at hnone
    | cons id' ids =>
      obtain ⟨heq, node', hnode', hnext⟩ := siblings_cons_iff.1 hids
      cases heq
      rw [hnode] at hnode'
      cases hnode'
      cases hchild : node.child with
      | none =>
        obtain ⟨fuel, text, hrun⟩ := ihNext hnext hsteps false
          ((if first then written else written ++ " ") ++ node.name)
        refine ⟨fuel + 1, text, ?_⟩
        rw [takeSteps_leaf hnode hchild]
        exact hrun
      | some child =>
        obtain ⟨below, hbelow, hcollect⟩ := hreachChild.collect_eq
        -- When the children have been written, the group is closed, and then come the
        -- other siblings.
        have hclose : ∀ first written, ∃ fuel text,
            takeSteps forest fuel (.close :: (ids.map .enter ++ steps)) first written =
              .ok text := by
          intro first written
          obtain ⟨fuel, text, hrun⟩ := ihNext hnext hsteps false (written ++ ")")
          exact ⟨fuel + 1, text, hrun⟩
        obtain ⟨fuel, text, hrun⟩ := ihChild hbelow hclose true
          ((if first then written else written ++ " ") ++ node.name ++ "(")
        refine ⟨fuel + 1, text, ?_⟩
        rw [takeSteps_group hnode hchild, ← hchild, hcollect, except_ok_bind]
        exact hrun

/-! ### Frame by frame -/

/-- The frames and the steps that are left when a group comes to its end,
innermost group first: its end, and the siblings ahead in the group around it.
The links that a frame may follow are enough. -/
inductive Around (forest : Forest) : List Frame → List Step → Prop
  | outside : Around forest [] []
  | group {ahead : Option NodeId} {ids : List NodeId} {links n : Nat} {frames : List Frame}
      {steps : List Step} :
    forest.Siblings ahead ids → forest.Reach ahead n → n ≤ links → Around forest frames steps →
      Around forest (.close :: .siblings links ahead false :: frames)
        (.close :: (ids.map .enter ++ steps))

/-- A run of the steps that ends writes what the frames do. Either flag is set
where a group was opened and nothing written since: the one flag is cleared by
the end of a group, and no siblings that follow one come first in theirs. -/
theorem Around.write_eq (h : forest.Around frames steps) (hids : forest.Siblings ahead ids)
    (hreach : forest.Reach ahead n) (hlinks : n ≤ links)
    (hrun : takeSteps forest fuel (ids.map .enter ++ steps) first written = .ok text) :
    Outline.write forest (.siblings links ahead first :: frames) written = text := by
  induction fuel using Nat.strongRecOn
    generalizing frames steps ahead ids n links first written with
  | ind fuel ih =>
    cases ids with
    | nil =>
      rw [Outline.write_absent (siblings_nil_iff.1 hids)]
      cases h with
      | outside =>
        rw [Outline.write]
        cases fuel <;> exact Except.ok.inj hrun
      | group hids' hreach' hlinks' hrest =>
        cases fuel with
        | zero => cases hrun
        | succ fuel =>
          rw [Outline.write]
          exact ih fuel (Nat.lt_succ_self _) hrest hids' hreach' hlinks' hrun
    | cons id ids =>
      obtain ⟨rfl, node, hnode, hnext⟩ := siblings_cons_iff.1 hids
      cases fuel with
      | zero => cases hrun
      | succ fuel =>
        have ih := @ih fuel (Nat.lt_succ_self _)
        obtain ⟨m, n, rfl, hreachChild, hreachNext⟩ := hreach.exists_of_node hnode
        cases links with
        | zero => exact absurd hlinks (Nat.not_succ_le_zero _)
        | succ links =>
          have hmax := Nat.le_of_succ_le_succ hlinks
          have hlinksChild := Nat.le_trans (Nat.le_max_left m n) hmax
          have hlinksNext := Nat.le_trans (Nat.le_max_right m n) hmax
          rw [Outline.write, Option.bind_some, hnode]
          cases hchild : node.child with
          | none =>
            rw [takeSteps_leaf hnode hchild] at hrun
            simp only [hchild]
            exact ih h hnext hreachNext hlinksNext hrun
          | some child =>
            rw [hchild] at hreachChild
            obtain ⟨below, hbelow, hcollect⟩ := hreachChild.collect_eq
            rw [takeSteps_group hnode hchild, hcollect, except_ok_bind] at hrun
            simp only [hchild]
            -- The siblings behind the node wait behind the end of its group.
            have haround := Around.group hnext hreachNext hlinksNext h
            exact ih haround hbelow hreachChild hlinksChild hrun

end Forest

/-! ### The whole outline -/

/-- Listing a walk fails only where the walk goes on for too long. -/
theorem Walk.collect_endsIn {σ : Type} [Walk σ] (forest : Forest) (fuel : Nat) (walk : σ)
    (found : Array NodeId) :
    EndsIn (fun _ => True) (· = .endless) (collect forest fuel walk found) := by
  induction fuel generalizing walk found with
  | zero =>
    unfold collect
    split
    · exact .ok trivial
    · exact .error rfl
  | succ fuel ih =>
    unfold collect
    split
    · exact .ok trivial
    · exact ih _ _

/-- The steps fail only where there are too many of them, or too many children
of one node. -/
theorem Outline.takeSteps_endsIn (forest : Forest) (fuel : Nat) (steps : List Step) (first : Bool)
    (written : String) :
    EndsIn (fun _ => True) (· = .endless) (takeSteps forest fuel steps first written) := by
  induction fuel generalizing steps first written with
  | zero =>
    cases steps with
    | nil => exact .ok trivial
    | cons step steps => exact .error rfl
  | succ fuel ih =>
    rcases steps with _ | ⟨id | _, steps⟩
    · exact .ok trivial
    · rw [takeSteps]
      cases forest[id]? with
      | none => exact ih _ _ _
      | some node =>
        cases hchild : node.child with
        | none =>
          simp only [hchild]
          exact ih _ _ _
        | some child =>
          simp only [hchild]
          exact (Walk.collect_endsIn _ _ _ _).bind fun children _ => ih _ _ _
    · exact ih _ _ _

namespace Forest

variable {forest : Forest}

/-- In any array, with any bound, the steps come to an end with the outline, or
they do not come to an end within the bound. Nothing is asked of the links. -/
theorem outlineInSteps_cases (forest : Forest) (fuel : Nat) :
    forest.outlineInSteps fuel = .ok forest.outline ∨
      forest.outlineInSteps fuel = .error .endless := by
  have hends : EndsIn (fun _ => True) (· = .endless) (forest.outlineInSteps fuel) :=
    (Walk.collect_endsIn _ _ _ _).bind fun top _ => Outline.takeSteps_endsIn _ _ _ _ _
  rcases hends with ⟨text, hrun, -⟩ | ⟨fault, hrun, rfl⟩
  · refine Or.inl (hrun.trans (congrArg Except.ok ?_))
    rw [outlineInSteps] at hrun
    obtain ⟨top, hcollect, hrun⟩ := exists_of_bind_eq_ok hrun
    obtain ⟨ids, hids, rfl⟩ := Walk.yields_of_collect hcollect
    rw [Array.empty_append, List.toList_toArray, ← List.append_nil (ids.map _)] at hrun
    obtain ⟨⟨n, hreach⟩, -⟩ := exists_reach_of_ok hids hrun
    exact (Around.outside.write_eq hids hreach hreach.le_size hrun).symm
  · exact Or.inr hrun

/-- A node that comes next after itself. -/
def revolving : Forest := #[{ Node.fresh "again" none 0 with next := some 0 }]

example : revolving.outline = "again" ∧ revolving.outlineInSteps 100 = .error .endless := by
  decide +kernel

/-- With the links that the parents imply the steps come to an end, also where
parents lead around in a circle: no walk from the top level comes to one. -/
theorem exists_outlineInSteps_eq (forest : Forest) :
    ∃ fuel, forest.familyLinked.outlineInSteps fuel = .ok forest.familyLinked.outline := by
  obtain ⟨grove, hgrown, -, -⟩ := forest.exists_grown_writes
  obtain ⟨ids, hids, hcollect⟩ := hgrown.reach.collect_eq
  have hend : ∀ first written, ∃ fuel text,
      Outline.takeSteps forest.familyLinked fuel [] first written = .ok text :=
    fun _ written => ⟨0, written, rfl⟩
  obtain ⟨fuel, text, hrun⟩ := hgrown.reach.exists_takeSteps hids hend true ""
  have htop : forest.familyLinked.walkTop = ⟨(forest.family none).head?⟩ := by
    rw [walkTop, topSlot?_eq_head?, familyLinked_family]
  refine ⟨fuel, (forest.familyLinked.outlineInSteps_cases fuel).resolve_right ?_⟩
  rw [outlineInSteps, htop, hcollect, except_ok_bind, List.toList_toArray,
    ← List.append_nil (ids.map _), hrun]
  simp

end Forest

end ParseForest
