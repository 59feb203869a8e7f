import ParseForest.Outline
import ParseForest.Proofs.Outline.Grove
import ParseForest.Proofs.Walk.Linked

/-!
# `ParseForest.Proofs.Outline`: what an outline says of a forest

The nodes that walks come to in a linked forest are a row of trees
(`Forest.Grown`), whatever circles there are elsewhere. `Outline.write` works
through it frame by frame. `Outline.Writes` are the runs of it that come to
an end before the links do that the frames may follow, and writing a row of
trees is one, which adds the text of the row: `Forest.Grown.writes`, by
induction on the trees. So the outline of the forest is the text of its trees
(`Forest.exists_grown_writes`).

The levels of the trees count links down, and `Forest.entries` counts nodes
above. In linked trees these are the same, for a child has one node more above
it than its parent, and a sibling as many (`Forest.Grown.levels_eq`). Hence the
outline determines the entries, and the entries determine the outline, if all
names are plain: `Forest.outline_eq_iff`.
-/

set_option autoImplicit false

namespace ParseForest

namespace Outline

/-- Writing some frames behind what is written comes to its end with a text, and
no frame is left with a node ahead for want of links. -/
inductive Writes (forest : Forest) : List Frame → String → String → Prop
  | nil {written : String} : Writes forest [] written written
  | close {rest : List Frame} {written text : String} :
    Writes forest rest (written ++ ")") text → Writes forest (.close :: rest) written text
  | absent {links : Nat} {ahead : Option NodeId} {first : Bool} {rest : List Frame}
      {written text : String} :
    ahead.bind (forest[·]?) = none → Writes forest rest written text →
      Writes forest (.siblings links ahead first :: rest) written text
  | leaf {links : Nat} {ahead : Option NodeId} {first : Bool} {rest : List Frame}
      {written text : String} {node : Node} :
    ahead.bind (forest[·]?) = some node → node.child = none →
      Writes forest (.siblings links node.next false :: rest)
        ((if first then written else written ++ " ") ++ node.name) text →
      Writes forest (.siblings (links + 1) ahead first :: rest) written text
  | group {links : Nat} {ahead : Option NodeId} {first : Bool} {rest : List Frame}
      {written text : String} {node : Node} {child : NodeId} :
    ahead.bind (forest[·]?) = some node → node.child = some child →
      Writes forest
        (.siblings links (some child) true :: .close :: .siblings links node.next false :: rest)
        ((if first then written else written ++ " ") ++ node.name ++ "(") text →
      Writes forest (.siblings (links + 1) ahead first :: rest) written text

/-- A frame whose link leads to no node is passed over, whether links may be
followed from there or not. -/
theorem write_absent {forest : Forest} {links : Nat} {ahead : Option NodeId} {first : Bool}
    {rest : List Frame} {written : String} (hahead : ahead.bind (forest[·]?) = none) :
    write forest (.siblings links ahead first :: rest) written = write forest rest written := by
  cases links with
  | zero => rw [write]
  | succ links => rw [write, hahead]

/-- What writing comes to its end with is what is written. The induction is on
the run, one case for each way in which a frame is taken. -/
theorem Writes.write_eq {forest : Forest} {frames : List Frame} {written text : String}
    (h : Writes forest frames written text) : write forest frames written = text := by
  induction h with
  | nil => rw [write]
  | close _ ih => rw [write, ih]
  | absent hahead _ ih => rw [write_absent hahead, ih]
  | leaf hnode hchild _ ih =>
    rw [write, hnode]
    simp only [hchild]
    exact ih
  | group hnode hchild _ ih =>
    rw [write, hnode]
    simp only [hchild]
    exact ih

end Outline

namespace Forest

variable {forest forest' : Forest} {link : Option NodeId} {ids : List NodeId} {grove : Grove NodeId}
  {j k p : NodeId}

/-- The name of the node in a slot. -/
def nameAt (forest : Forest) (k : NodeId) : String := forest[k]?.elim "" Node.name

/-- The slots above a slot. -/
def ancestors (forest : Forest) (k : NodeId) : List NodeId :=
  (List.range forest.size).filter fun a => forest.wayUp.Above a k

/-- The nodes that walks come to, each by its name and the number of nodes above
it. -/
def entries (forest : Forest) : List (String × Nat) :=
  forest.walkAll.map fun k => (forest.nameAt k, (forest.ancestors k).length)

/-- The trees that a link leads to. -/
inductive Grown (forest : Forest) : Option NodeId → Grove NodeId → Prop
  | nil : Grown forest none .nil
  | cons {id : NodeId} {node : Node} {below behind : Grove NodeId} :
    forest[id]? = some node → Grown forest node.child below → Grown forest node.next behind →
      Grown forest (some id) (.cons id below behind)

/-! ### Writing -/

/-- Writing what a link leads to comes to its end if it may follow enough links
to come to all of it, and what it adds is the text of the trees there. The
frames behind are left open, as they are different inside a group. -/
theorem Grown.writes (h : forest.Grown link grove) {links : Nat} (hlinks : grove.reach ≤ links)
    {first : Bool} {rest : List Outline.Frame} {written text : String}
    (hrest : Outline.Writes forest rest
      (written ++ (grove.map forest.nameAt).text first) text) :
    Outline.Writes forest (.siblings links link first :: rest) written text := by
  induction h generalizing links first rest written with
  | nil =>
    refine .absent rfl ?_
    simpa [Grove.map, Grove.text] using hrest
  | @cons id node below behind hnode hbelow _ ihBelow ihBehind =>
    cases links with
    | zero => exact absurd hlinks (Nat.not_succ_le_zero _)
    | succ links =>
      have hreach : max below.reach behind.reach ≤ links := Nat.le_of_succ_le_succ hlinks
      have hname : forest.nameAt id = node.name := by rw [nameAt, hnode]; rfl
      cases hchild : node.child with
      | none =>
        -- Nothing is below the node, and no group is opened.
        rw [hchild] at hbelow
        cases hbelow
        refine .leaf hnode hchild (ihBehind (Nat.le_trans (Nat.le_max_right _ _) hreach) ?_)
        cases first <;>
          simpa [Grove.map, Grove.text, Grove.isNil, hname, String.append_assoc] using hrest
      | some child =>
        rw [hchild] at hbelow ihBelow
        refine .group hnode hchild (ihBelow (Nat.le_trans (Nat.le_max_left _ _) hreach) (.close ?_))
        refine ihBehind (Nat.le_trans (Nat.le_max_right _ _) hreach) ?_
        -- A link to a node leads to some trees, so the group has something in it.
        cases hbelow with
        | cons _ _ _ =>
          cases first <;>
            simpa [Grove.map, Grove.text, Grove.isNil, hname, String.append_assoc] using hrest

/-! ### Depths -/

/-- The slots above a slot are the ones listed. None of them is outside the
array if all parents are in it. -/
theorem mem_ancestors {a : NodeId} (hclosed : forest.Closed) :
    a ∈ forest.ancestors k ↔ forest.wayUp.Above a k := by
  rw [ancestors, List.mem_filter, List.mem_range, decide_eq_true_iff]
  refine and_iff_right_of_imp fun ha => ?_
  -- The last link of the way up leads to the slot.
  obtain ⟨c, hc, -⟩ := WayUp.above_iff_exists_down.1 ha
  exact hclosed c a hc

/-- Slots under one parent have the same slots above them. -/
theorem ancestors_congr (h : forest.parent? j = forest.parent? k) :
    forest.ancestors j = forest.ancestors k := by
  rw [ancestors, ancestors]
  congr 1
  funext a
  rw [decide_eq_decide, WayUp.above_iff, WayUp.above_iff]
  show (∃ p, forest.parent? j = some p ∧ _) ↔ ∃ p, forest.parent? k = some p ∧ _
  rw [h]

/-- A slot without a parent has nothing above it. -/
theorem ancestors_of_top (h : forest.parent? k = none) : forest.ancestors k = [] := by
  rw [ancestors, List.filter_eq_nil_iff]
  intro a _
  rw [decide_eq_true_iff]
  exact WayUp.not_above_of_up_none h

/-- Setting the links changes nothing about what is above a slot. -/
theorem ancestors_familyLinked (forest : Forest) (k : NodeId) :
    forest.familyLinked.ancestors k = forest.ancestors k := by
  have hup : forest.familyLinked.wayUp = forest.wayUp := funext (parent?_familyLinked _)
  rw [ancestors, ancestors, size_familyLinked]
  simp only [hup]

/-- A slot has one more slot above it than its parent has: the parent, and that
is not above itself. -/
theorem length_ancestors_of_parent (hclosed : forest.Closed) (hacyclic : forest.wayUp.Acyclic)
    (h : forest.parent? k = some p) :
    (forest.ancestors k).length = (forest.ancestors p).length + 1 := by
  have hnodup : ∀ j, (forest.ancestors j).Nodup := fun j => List.nodup_range.filter _
  have hself : p ∉ forest.ancestors p := mt (mem_ancestors hclosed).1 (hacyclic p)
  have hperm : (forest.ancestors k).Perm (p :: forest.ancestors p) := by
    refine (List.perm_ext_iff_of_nodup (hnodup k) (List.nodup_cons.2 ⟨hself, hnodup p⟩)).2 ?_
    intro a
    rw [List.mem_cons, mem_ancestors hclosed, mem_ancestors hclosed, WayUp.above_iff_of_up h,
      WayUp.atOrAbove_iff]
  exact hperm.length_eq

/-- In linked trees, the levels are the numbers of slots above. The induction is
on the trees: down a link there is one more, and along it there are as many. -/
theorem Grown.levels_eq (hclosed : forest.Closed) (hacyclic : forest.wayUp.Acyclic)
    (h : forest.familyLinked.Grown link grove) {depth : Nat}
    (hlink : ∀ id ∈ link, (forest.ancestors id).length = depth) :
    grove.levels depth = grove.labels.map fun k => (k, (forest.ancestors k).length) := by
  induction h generalizing depth with
  | nil => rfl
  | @cons id node below behind hnode _ _ ihBelow ihBehind =>
    have hid := hlink id rfl
    rw [getElem?_familyLinked, Option.map_eq_some_iff] at hnode
    obtain ⟨unlinked, -, rfl⟩ := hnode
    have hchild : ∀ c ∈ forest.firstChild? id, (forest.ancestors c).length = depth + 1 := by
      intro c hc
      have hparent := mem_family_some.1 (List.mem_of_mem_head? hc)
      rw [length_ancestors_of_parent hclosed hacyclic hparent, hid]
    have hnext : ∀ c ∈ forest.nextSibling? id, (forest.ancestors c).length = depth := by
      intro c hc
      have hparent := (mem_family.1 (List.mem_of_find?_eq_some hc)).2
      rw [ancestors_congr hparent, hid]
    simp only [Grove.levels, Grove.labels, List.map_cons, List.map_append, hid, ihBelow hchild,
      ihBehind hnext]

/-! ### The trees of a forest -/

/-- Where a link leads to some nodes, it leads to trees of them. The list has
the nodes in order and forgets which of them are below which; the trees do
not. -/
theorem Spread.exists_grown (h : forest.Spread link ids) :
    ∃ grove, forest.Grown link grove ∧ grove.labels = ids := by
  induction h with
  | nil => exact ⟨.nil, .nil, rfl⟩
  | @cons id node below behind hnode _ _ ihBelow ihBehind =>
    obtain ⟨groveBelow, hbelow, rfl⟩ := ihBelow
    obtain ⟨groveBehind, hbehind, rfl⟩ := ihBehind
    exact ⟨.cons id groveBelow groveBehind, .cons hnode hbelow hbehind, rfl⟩

/-- Writing a linked forest comes to its end, and the outline is the text of the
trees of all nodes that walks come to. Circles of parents do not matter, because
no walk from the top level comes to one. -/
theorem exists_grown_writes (forest : Forest) :
    ∃ grove, forest.familyLinked.Grown (forest.family none).head? grove ∧
      grove.labels = forest.familyLinked.walkAll ∧
      Outline.Writes forest.familyLinked
        [.siblings forest.familyLinked.size forest.familyLinked.walkTop.ahead true] ""
        ((grove.map forest.familyLinked.nameAt).text true) := by
  obtain ⟨grove, hgrown, hlabels⟩ := forest.spread_walkAll.exists_grown
  refine ⟨grove, hgrown, hlabels, ?_⟩
  have hlength : grove.labels.length ≤ forest.size := by
    rw [hlabels]
    exact length_le_size forest.nodup_walkAll fun k hk => lt_size_of_mem_walkAll hk
  have hreach : grove.reach ≤ forest.familyLinked.size := by
    rw [size_familyLinked]
    exact Nat.le_trans grove.reach_le hlength
  rw [walkTop, topSlot?_eq_head?, familyLinked_family]
  refine hgrown.writes hreach ?_
  rw [String.empty_append]
  exact .nil

/-- Without circles, the levels of these trees are the entries of the forest. -/
theorem Grown.entries_eq (hclosed : forest.Closed) (hacyclic : forest.wayUp.Acyclic)
    (h : forest.familyLinked.Grown (forest.family none).head? grove)
    (hlabels : grove.labels = forest.familyLinked.walkAll) :
    (grove.map forest.familyLinked.nameAt).levels 0 = forest.familyLinked.entries := by
  have htop : ∀ t ∈ (forest.family none).head?, (forest.ancestors t).length = 0 := by
    intro t ht
    rw [ancestors_of_top (mem_family.1 (List.mem_of_mem_head? ht)).2]
    rfl
  rw [Grove.levels_map, h.levels_eq hclosed hacyclic htop, hlabels, entries, List.map_map]
  simp only [ancestors_familyLinked]
  rfl

/-- A name that walks come to is the name of a node, so what holds of all names
holds of it. -/
theorem exists_node_of_mem_walkAll {name : String}
    (h : name ∈ forest.familyLinked.walkAll.map forest.familyLinked.nameAt) :
    ∃ node ∈ forest.familyLinked, node.name = name := by
  obtain ⟨k, hk, rfl⟩ := List.mem_map.1 h
  have hlt : k < forest.familyLinked.size := by
    rw [size_familyLinked]
    exact lt_size_of_mem_walkAll hk
  refine ⟨forest.familyLinked[k], Array.getElem_mem hlt, ?_⟩
  rw [nameAt, Array.getElem?_eq_getElem hlt]
  rfl

/-- Two linked forests without circles whose names are plain have the same
outline exactly if they have the same entries. The trees stand between the two:
they have the outline for a text, and the entries for levels. -/
theorem outline_eq_iff (hclosed : forest.Closed) (hacyclic : forest.wayUp.Acyclic)
    (hclosed' : forest'.Closed) (hacyclic' : forest'.wayUp.Acyclic)
    (hplain : ∀ node ∈ forest.familyLinked, PlainName node.name)
    (hplain' : ∀ node ∈ forest'.familyLinked, PlainName node.name) :
    forest.familyLinked.outline = forest'.familyLinked.outline ↔
      forest.familyLinked.entries = forest'.familyLinked.entries := by
  have hnames : ∀ {forest : Forest} {grove : Grove NodeId},
      (∀ node ∈ forest.familyLinked, PlainName node.name) →
      grove.labels = forest.familyLinked.walkAll →
        ∀ name ∈ (grove.map forest.familyLinked.nameAt).labels, PlainName name := by
    intro forest grove hplain hlabels name hname
    rw [Grove.labels_map, hlabels] at hname
    obtain ⟨node, hnode, rfl⟩ := exists_node_of_mem_walkAll hname
    exact hplain node hnode
  obtain ⟨grove, hgrown, hlabels, hwrites⟩ := forest.exists_grown_writes
  obtain ⟨grove', hgrown', hlabels', hwrites'⟩ := forest'.exists_grown_writes
  rw [outline, outline, hwrites.write_eq, hwrites'.write_eq,
    ← hgrown.entries_eq hclosed hacyclic hlabels, ← hgrown'.entries_eq hclosed' hacyclic' hlabels']
  exact Grove.text_eq_iff (hnames hplain hlabels) (hnames hplain' hlabels')

end Forest

end ParseForest
