import ParseForest.Proofs.Packing.Outline

/-!
# `ParseForest.Proofs.Packing.OutlineSize`: how long an outline is

Written as a text, a row of trees has every name once, a pair of parentheses for
every node with something below it, and a blank before every tree but the first
of its row. There are as many rows as nodes with something below them, and the
top level is one more. So the text takes up the bytes of the names, one for
every node and one for every node with something below it, less one if there is
any node at all: `Grove.utf8ByteSize_text`, by induction on the trees.

A tree in a linked forest has something below it exactly if the node has a child
link (`Forest.Grown.inner_eq`), and that says that some node has it for a
parent. Walks come to every node of what is packed once, so
`Forest.pack_outline_utf8ByteSize` counts the nodes of the array.
-/

set_option autoImplicit false

namespace ParseForest

/-- How many bytes some names take up. -/
def byteSizes : List String → Nat
  | [] => 0
  | name :: names => name.utf8ByteSize + byteSizes names

/-- Names in two lists take up the bytes of both. -/
theorem byteSizes_append (names names' : List String) :
    byteSizes (names ++ names') = byteSizes names + byteSizes names' := by
  induction names with
  | nil => simp [byteSizes]
  | cons name names ih => rw [List.cons_append, byteSizes, byteSizes, ih, Nat.add_assoc]

/-- The order of the names does not matter. -/
theorem byteSizes_perm {names names' : List String} (h : names.Perm names') :
    byteSizes names = byteSizes names' := by
  induction h with
  | nil => rfl
  | cons name _ ih => rw [byteSizes, byteSizes, ih]
  | swap name name' names => simp only [byteSizes, Nat.add_left_comm]
  | trans _ _ ih ih' => exact ih.trans ih'

namespace Grove

variable {α β : Type}

/-- The labels of the nodes with something below them. -/
def inner : Grove α → List α
  | nil => []
  | cons label below behind =>
    (if below.isNil then [] else [label]) ++ (below.inner ++ behind.inner)

/-- With other labels, there are trees if there were. -/
theorem isNil_map (f : α → β) (grove : Grove α) : (grove.map f).isNil = grove.isNil := by
  cases grove <;> rfl

/-- With other labels, the same nodes have something below them. -/
theorem inner_map (f : α → β) (grove : Grove α) : (grove.map f).inner = grove.inner.map f := by
  induction grove with
  | nil => rfl
  | cons label below behind ihBelow ihBehind =>
    rw [map, inner, isNil_map, ihBelow, ihBehind, inner]
    cases below.isNil <;> simp

/-- A row has no trees exactly if it has no labels. -/
theorem isNil_iff (grove : Grove α) : grove.isNil = true ↔ grove.labels = [] := by
  cases grove <;> simp [isNil, labels]

/-- The text takes up the bytes of the names, and one more for every node and
for every node with something below it. Only the first node of the row goes
without, if nothing comes before it. -/
theorem utf8ByteSize_text (grove : Grove String) (first : Bool) :
    (grove.text first).utf8ByteSize + (if first && !grove.isNil then 1 else 0) =
      byteSizes grove.labels + (grove.labels.length + grove.inner.length) := by
  induction grove generalizing first with
  | nil => cases first <;> rfl
  | cons name below behind ihBelow ihBehind =>
    -- In its parentheses, what is below the node goes without a blank before it.
    have hgroup : (if below.isNil then "" else "(" ++ below.text true ++ ")").utf8ByteSize =
        byteSizes below.labels + (below.labels.length + below.inner.length) +
          (if below.isNil then [] else [name]).length := by
      rw [← ihBelow true]
      cases hnil : below.isNil with
      | true =>
        cases below with
        | nil => rfl
        | cons _ _ _ => cases hnil
      | false =>
        have hopen : "(".utf8ByteSize = 1 := rfl
        have hclose : ")".utf8ByteSize = 1 := rfl
        simp only [Bool.false_eq_true, if_false, String.utf8ByteSize_append, hopen, hclose,
          Bool.not_false, Bool.and_self, if_true, List.length_singleton]
        omega
    have hblank : (if first then "" else " ").utf8ByteSize + (if first then 1 else 0) = 1 := by
      cases first <;> rfl
    have hbehind := ihBehind false
    simp only [Bool.false_and, Bool.false_eq_true, if_false, Nat.add_zero] at hbehind
    have hcons : (cons name below behind).isNil = false := rfl
    rw [text, labels, inner, hcons, Bool.not_false, Bool.and_true, byteSizes, byteSizes_append]
    simp only [String.utf8ByteSize_append, List.length_cons, List.length_append]
    rw [hgroup, hbehind]
    omega

end Grove

namespace Forest

variable {forest : Forest} {top : Nat} {link : Option NodeId} {grove : Grove NodeId}

/-- The slots with at least one slot under them. -/
def inner (forest : Forest) : List NodeId :=
  (List.range forest.size).filter fun p => ∃ k < forest.size, forest.parent? k = some p

/-- In the trees of a forest, the nodes with something below them are those with
a child link. -/
theorem Grown.inner_eq (h : forest.Grown link grove) :
    grove.inner = grove.labels.filter fun k => (forest[k]?.bind Node.child).isSome := by
  induction h with
  | nil => rfl
  | @cons id node below behind hnode hbelow _ ihBelow ihBehind =>
    have hnil : below.isNil = !(forest[id]?.bind Node.child).isSome := by
      rw [hnode, Option.bind_some]
      cases hchild : node.child with
      | none =>
        rw [hchild] at hbelow
        cases hbelow
        rfl
      | some child =>
        rw [hchild] at hbelow
        cases hbelow
        rfl
    rw [Grove.inner, Grove.labels, List.filter_cons, List.filter_append, ihBelow, ihBehind, hnil]
    cases (forest[id]?.bind Node.child).isSome <;> simp

/-- In a linked forest the slots with at least one slot under them have a child
link, and no others do. -/
theorem inner_eq_filter (forest : Forest) :
    forest.inner = (List.range forest.size).filter fun p =>
      (forest.familyLinked[p]?.bind Node.child).isSome := by
  refine List.filter_congr fun p hp => ?_
  have hne : (∃ k < forest.size, forest.parent? k = some p) ↔ forest.family (some p) ≠ [] := by
    rw [← List.isEmpty_eq_false_iff, List.isEmpty_eq_false_iff_exists_mem]
    simp only [mem_family]
  rw [child_familyLinked (List.mem_range.1 hp), firstChild?, Bool.eq_iff_iff, decide_eq_true_iff,
    List.isSome_head?, hne]

/-- Setting the links puts no slot under another one. -/
theorem inner_familyLinked (forest : Forest) : forest.familyLinked.inner = forest.inner := by
  simp only [inner, size_familyLinked, parent?_familyLinked]

/-- The names of all slots are the names in the array. -/
theorem map_nameAt_range (forest : Forest) :
    (List.range forest.size).map forest.nameAt = forest.toList.map Node.name := by
  refine List.ext_getElem (by simp) fun k hk _ => ?_
  have hlt : k < forest.size := by simpa using hk
  simp [nameAt, hlt]

/-- A linked forest without circles has an outline of as many bytes as the names
take up, its nodes are and its nodes with a child are, less one if there is a
node. -/
theorem utf8ByteSize_outline (hclosed : forest.Closed) (hacyclic : forest.wayUp.Acyclic) :
    forest.familyLinked.outline.utf8ByteSize + (if forest.size = 0 then 0 else 1) =
      byteSizes (forest.familyLinked.toList.map Node.name) +
        (forest.size + forest.inner.length) := by
  obtain ⟨grove, hgrown, hlabels, hwrites⟩ := forest.exists_grown_writes
  -- Walks come to every slot once, so what is counted in the trees is counted in the
  -- array.
  have hperm : grove.labels.Perm (List.range forest.size) := by
    rw [hlabels]
    exact (walkAll_perm hclosed hacyclic).2.2
  have hlength : grove.labels.length = forest.size := by
    rw [hperm.length_eq, List.length_range]
  have hnames : byteSizes (grove.map forest.familyLinked.nameAt).labels =
      byteSizes (forest.familyLinked.toList.map Node.name) := by
    rw [Grove.labels_map, ← map_nameAt_range, size_familyLinked]
    exact byteSizes_perm (hperm.map _)
  have hinner : grove.inner.length = forest.inner.length := by
    rw [hgrown.inner_eq, inner_eq_filter]
    exact (hperm.filter _).length_eq
  have hnil : (grove.isNil = true) ↔ forest.size = 0 := by
    rw [Grove.isNil_iff, ← List.length_eq_zero_iff, hlength]
  have htext := (grove.map forest.familyLinked.nameAt).utf8ByteSize_text true
  rw [Grove.isNil_map, hnames, Grove.labels_map, List.length_map, hlength, Grove.inner_map,
    List.length_map, hinner] at htext
  rw [outline, hwrites.write_eq, ← htext]
  congr 1
  -- The first tree goes without a blank before it, if there is one.
  by_cases hsize : forest.size = 0
  · rw [if_pos hsize, hnil.2 hsize]
    rfl
  · rw [if_neg hsize, Bool.eq_false_iff.2 (mt hnil.1 hsize)]
    rfl

/-- The outline of what is packed takes up the bytes of all names, one for every
node and one for every node that is the parent of another, less one. If there is
no node, it is empty. -/
theorem pack_outline_utf8ByteSize {out : Forest} {events : Array Event}
    (h : forest.pack top = .ok ⟨.ok out, events⟩) :
    (1 ≤ out.size → out.outline.utf8ByteSize =
        byteSizes (out.toList.map Node.name) + (out.size + out.inner.length - 1)) ∧
      (out.size = 0 → out.outline = "") := by
  obtain ⟨htree, rfl⟩ := pack_eq_ok h
  obtain ⟨hclosed, hacyclic⟩ := keptWhere_packedNode_wayUp htree
  have hbytes := utf8ByteSize_outline hclosed hacyclic
  rw [packed, size_familyLinked, inner_familyLinked]
  constructor
  · intro hsize
    rw [if_neg (by omega)] at hbytes
    omega
  · intro hsize
    have hempty : (forest.used top).packed = #[] := by
      rw [← Array.size_eq_zero_iff, packed, size_familyLinked, hsize]
    rw [← packed, hempty, outline, Array.size_empty, Outline.write, Outline.write]

/-- The hypotheses hold of `crossed`: of four nodes two have children, so 5
bytes come on top of the 19 that the names take up. -/
theorem pack_outline_utf8ByteSize_crossed :
    (∃ events, crossed.pack 6 = .ok ⟨.ok (crossed.used 6).packed, events⟩) ∧
      1 ≤ (crossed.used 6).packed.size ∧ (crossed.used 6).packed.outline.utf8ByteSize = 24 := by
  have hpack : crossed.pack 6 = .ok ⟨.ok (crossed.used 6).packed,
      #[.absorbed 3 1 0, .absorbed 5 2 0, .packed 6 4]⟩ := by decide +kernel
  have hsize : 1 ≤ (crossed.used 6).packed.size := by decide +kernel
  have hbytes : byteSizes ((crossed.used 6).packed.toList.map Node.name) = 19 := by decide +kernel
  have hcount : (crossed.used 6).packed.size + (crossed.used 6).packed.inner.length - 1 = 5 := by
    decide +kernel
  refine ⟨⟨_, hpack⟩, hsize, ?_⟩
  rw [(pack_outline_utf8ByteSize hpack).1 hsize, hbytes, hcount]

end Forest

end ParseForest
