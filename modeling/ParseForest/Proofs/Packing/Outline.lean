import ParseForest.Proofs.Outline
import ParseForest.Proofs.Packing

/-!
# `ParseForest.Proofs.Packing.Outline`: the outline of what is packed

What is packed has no circles, and its links are those that the parents imply.
So its outline is the text of all its nodes, and if every name is plain, no
other trees have that outline (`Forest.pack_outline_eq_iff`).
-/

set_option autoImplicit false

namespace ParseForest.Forest

variable {forest forest' : Forest} {top top' : Nat}

/-- Whether the names are plain can be told from the names alone. The names of a
packed tree can be listed without its links. -/
theorem forall_plainName_iff (forest : Forest) :
    (∀ node ∈ forest, PlainName node.name) ↔
      ∀ name ∈ forest.toList.map Node.name, PlainName name := by
  rw [List.forall_mem_map]
  simp only [Array.mem_toList_iff]

/-- Let two arrays be packed, and let all names in what comes of them be plain.
The outlines are the same exactly if walks come to the same names at the same
depths. -/
theorem pack_outline_eq_iff {out out' : Forest} {events events' : Array Event}
    (h : forest.pack top = .ok ⟨.ok out, events⟩)
    (h' : forest'.pack top' = .ok ⟨.ok out', events'⟩)
    (hplain : ∀ node ∈ out, PlainName node.name)
    (hplain' : ∀ node ∈ out', PlainName node.name) :
    out.outline = out'.outline ↔ out.entries = out'.entries := by
  obtain ⟨htree, rfl⟩ := pack_eq_ok h
  obtain ⟨htree', rfl⟩ := pack_eq_ok h'
  obtain ⟨hclosed, hacyclic⟩ := keptWhere_packedNode_wayUp htree
  obtain ⟨hclosed', hacyclic'⟩ := keptWhere_packedNode_wayUp htree'
  exact outline_eq_iff hclosed hacyclic hclosed' hacyclic' hplain hplain'

/-- The nodes that stay of `crossed`, each after its parent. -/
def uncrossed : Forest := #[
  { Node.fresh "outer" none 1 with length := 6 },
  { Node.fresh "late" (some 0) 1 with length := 2 },
  { Node.fresh "inner" (some 0) 3 with length := 4 },
  { Node.fresh "plain" (some 2) 3 with length := 3 }]

example : uncrossed.packed.outline = "outer(late inner(plain))" := by cbv

example : uncrossed.packed.entries = [("outer", 0), ("late", 1), ("inner", 1), ("plain", 2)] := by
  decide +kernel

/-- The hypotheses hold of `crossed` and `uncrossed`. The packed trees are
different arrays, and yet they have the same entries, and so the same
outline. -/
theorem pack_outline_eq_iff_crossed :
    (∃ events, crossed.pack 6 = .ok ⟨.ok (crossed.used 6).packed, events⟩) ∧
      (∃ events, uncrossed.pack 4 = .ok ⟨.ok (uncrossed.used 4).packed, events⟩) ∧
      (∀ node ∈ (crossed.used 6).packed, PlainName node.name) ∧
      (∀ node ∈ (uncrossed.used 4).packed, PlainName node.name) ∧
      (crossed.used 6).packed ≠ (uncrossed.used 4).packed ∧
      (crossed.used 6).packed.entries = (uncrossed.used 4).packed.entries ∧
      (crossed.used 6).packed.outline = (uncrossed.used 4).packed.outline := by
  have hpack : crossed.pack 6 = .ok ⟨.ok (crossed.used 6).packed,
      #[.absorbed 3 1 0, .absorbed 5 2 0, .packed 6 4]⟩ := by decide +kernel
  have hpack' : uncrossed.pack 4 = .ok ⟨.ok (uncrossed.used 4).packed, #[.packed 4 4]⟩ := by
    decide +kernel
  have hnames : (crossed.used 6).packed.toList.map Node.name =
      ["late", "plain", "inner", "outer"] := by decide +kernel
  have hnames' : (uncrossed.used 4).packed.toList.map Node.name =
      ["outer", "late", "inner", "plain"] := by decide +kernel
  have hplain : ∀ node ∈ (crossed.used 6).packed, PlainName node.name := by
    rw [forall_plainName_iff, hnames]
    decide
  have hplain' : ∀ node ∈ (uncrossed.used 4).packed, PlainName node.name := by
    rw [forall_plainName_iff, hnames']
    decide
  have hne : (crossed.used 6).packed ≠ (uncrossed.used 4).packed := by decide +kernel
  have hentries : (crossed.used 6).packed.entries = (uncrossed.used 4).packed.entries := by
    decide +kernel
  have houtline := (pack_outline_eq_iff hpack hpack' hplain hplain').2 hentries
  exact ⟨⟨_, hpack⟩, ⟨_, hpack'⟩, hplain, hplain', hne, hentries, houtline⟩

end ParseForest.Forest
