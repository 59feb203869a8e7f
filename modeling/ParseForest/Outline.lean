import ParseForest.Walk.Sibling

/-!
# `ParseForest.Outline`: a forest as a line of text

The outline of a forest is the texts of its top-level nodes with blanks between
them. The text of a node is its name, and if the node has a child link, the
texts of its children with blanks between them follow in parentheses. A child
link that leads nowhere leaves nothing between the parentheses.

`Outline.write` works through a list of frames, so that neither deep nor wide
forests need room on the stack of the machine. Each frame that leads to nodes
holds the number of links that may still be followed from there. A way down and
along without a circle meets no node twice, so it never takes more links than
there are nodes.

Where `child` and `next` lead around in a circle there is no such text, and
writing it would have no end. The other passes answer with `Fault.endless` where
they go around in one; `Forest.outline` always answers, and what it answers then
is a text that was cut off when the links ran out. The links that
`Forest.relink` sets never make it so.

Each frame has a flag of its own for whether a blank is due. One flag for all
groups does as well: `ParseForest.Proofs.Outline.InSteps` enters all children of
a node at once, with such a flag, and shows that this comes to the same text
wherever it comes to an end.
-/

set_option autoImplicit false

namespace ParseForest

namespace Outline

/-- A piece of an outline that is still to be written. -/
inductive Frame
  /-- The texts of a node and of the siblings behind it, over at most `links`
  links; `first` if no sibling comes before them. -/
  | siblings (links : Nat) (ahead : Option NodeId) (first : Bool)
  /-- The end of the children of a node. -/
  | close
deriving DecidableEq, Repr

/-- At least as many steps as it takes to write a frame. -/
def Frame.weight : Frame → Nat
  | siblings links _ _ => Nat.pow 4 links
  | close => 1

/-- At least as many steps as it takes to write some frames. -/
def weights : List Frame → Nat
  | [] => 0
  | frame :: rest => frame.weight + weights rest

/-- Every frame weighs something, so that dropping one is progress. -/
theorem weight_pos (frame : Frame) : 0 < frame.weight := by
  cases frame
  · exact Nat.pow_pos (by decide)
  · exact Nat.one_pos

/-- Frames weigh less than the same frames behind another one. This is the
measure for every step of `write` that puts nothing in the place of the frame it
takes. -/
theorem weights_lt_cons (frame : Frame) (rest : List Frame) :
    weights rest < weights (frame :: rest) :=
  Nat.lt_add_of_pos_left (weight_pos frame)

/-- A frame of siblings outweighs what takes its place: the children of the
first sibling, the end of these, and the siblings behind it. One link less makes
for a quarter of the weight, and two quarters and one are less than the
whole. -/
theorem weight_siblings_succ (links : Nat) (ahead below behind : Option NodeId)
    (first first' first'' : Bool) :
    (Frame.siblings links below first').weight +
        (Frame.close.weight + (Frame.siblings links behind first'').weight) <
      (Frame.siblings (links + 1) ahead first).weight := by
  have hpos : 0 < Nat.pow 4 links := Nat.pow_pos (by decide)
  show Nat.pow 4 links + (1 + Nat.pow 4 links) < Nat.pow 4 links * 4
  omega

/-- Writes the frames behind what is written. A frame that is out of links is
dropped, as if nothing was ahead in it. -/
def write (forest : Forest) (frames : List Frame) (written : String) : String :=
  match frames with
  | [] => written
  | .close :: rest => write forest rest (written ++ ")")
  | .siblings 0 _ _ :: rest => write forest rest written
  | .siblings (links + 1) ahead first :: rest =>
    match ahead.bind (forest[·]?) with
    | none => write forest rest written
    | some node =>
      let written := (if first then written else written ++ " ") ++ node.name
      match node.child with
      | none => write forest (.siblings links node.next false :: rest) written
      | some child =>
        write forest
          (.siblings links (some child) true :: .close :: .siblings links node.next false :: rest)
          (written ++ "(")
termination_by weights frames
decreasing_by
  · exact weights_lt_cons .close rest
  · exact weights_lt_cons _ rest
  · exact weights_lt_cons _ rest
  · have := weight_siblings_succ links ahead none node.next first true false
    simp only [weights, Nat.succ_eq_add_one]
    omega
  · have := weight_siblings_succ links ahead (some child) node.next first true false
    simp only [weights, Nat.succ_eq_add_one]
    omega

end Outline

/-- The outline of a forest. If the links from the top level lead around in a
circle, there is none, and this is a text cut off on the way around: each way
down and along is followed over as many links as there are nodes, and no
further. -/
def Forest.outline (forest : Forest) : String :=
  Outline.write forest [.siblings forest.size forest.walkTop.ahead true] ""

end ParseForest
