import ParseForest.Proofs.Adoption.InPlace
import ParseForest.Proofs.Compaction.InPlace
import ParseForest.Proofs.Outline.InSteps
import ParseForest.Proofs.Packing

/-!
# `ParseForest.Proofs.Packing.InPlace`: packing in the array that is there

Each pass has a form that works in the array it is given: `Forest.linkInOrder`
sets the links from the first slot to the last, `Forest.adoptRunsInPlace` finds
the runs of siblings along these links, and `Forest.compactInPlace` moves the
nodes that stay to the front, behind which the array is cut off.
`Forest.packInPlace` is packing with these forms.

Each of them was shown to come to the same as its counterpart, so packing in
place does as well (`Forest.packInPlace_eq`), and whatever is proved of
`Forest.pack` is true of it. The same goes for the outline of a packed tree:
written in steps, it comes to its end (`Forest.pack_outlineInSteps`).
-/

set_option autoImplicit false

namespace ParseForest.Forest

variable {forest tree : Forest} {top : Nat} {events : Array Event}

/-- `Forest.pack`, in the array that is there: the nodes that are left are those
before the slot up to which compaction has moved them. -/
def packInPlace (forest : Forest) (top : Nat) :
    Except Fault (Told (Except Rejection Forest)) := do
  if forest.size < top then
    return ⟨.error (.topBeyondArray top forest.size), #[]⟩
  let used : Forest := forest.take top
  match used.inspect with
  | ⟨.error rejection, events⟩ => return ⟨.error rejection, events⟩
  | ⟨.ok (), events⟩ =>
    let adopted ← used.adoptRunsInPlace
    let gathering ← adopted.answer.compactInPlace
    let linked ← linkInOrder (gathering.forest.take gathering.front)
    return ⟨.ok linked, events ++ adopted.events.push (.packed top gathering.front)⟩

/-- Packing in place comes to the same as `Forest.pack` for every array: the
same tree or the same rejection, with the same events, or the same fault. -/
theorem packInPlace_eq (forest : Forest) (top : Nat) :
    forest.packInPlace top = forest.pack top := by
  rw [packInPlace, pack]
  split
  · rfl
  · simp only [adoptRunsInPlace_eq, linkInOrder_eq_relink]
    rcases Forest.inspect (forest.take top) with ⟨rejection | ⟨⟩, events⟩
    · rfl
    · show (Forest.adoptRuns (forest.take top) >>= fun adopted => _) =
        (Forest.adoptRuns (forest.take top) >>= fun adopted => _)
      congr 1
      funext adopted
      rcases adopted.answer.compactInPlace_cases with
        ⟨fault, hcompact, hinPlace⟩ | ⟨kept, gone, hcompact, hinPlace, -⟩
      · rw [hcompact, hinPlace]
        rfl
      · -- What is cut off behind the nodes that are left are the removed ones.
        have hcut : (kept ++ gone).take kept.size = kept := by simp
        rw [hcompact, hinPlace, except_ok_bind, except_ok_bind, hcut]

/-- The outline of a packed tree is what the steps write, and they come to
an end: the last thing that packing does is to set the links. -/
theorem pack_outlineInSteps (h : forest.pack top = .ok ⟨.ok tree, events⟩) :
    ∃ fuel, tree.outlineInSteps fuel = .ok tree.outline := by
  obtain ⟨-, rfl⟩ := pack_eq_ok h
  exact exists_outlineInSteps_eq _

end ParseForest.Forest
