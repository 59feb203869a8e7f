import ParseForest.Proofs.Compaction.Outside

/-!
# `ParseForest.Proofs.Compaction.Searches`: no removed node is climbed twice

Compaction makes one search for every slot, from the parent that it finds there.
`Resolution.Search` is a search along with what is known when it starts, and
`Resolution.searches` lists the searches for the lowest slots, in order. To deal
with a slot is to make its search and to take the answer
(`Resolution.resolve_eq_search`).

A search stops at the first note that it comes to, and it notes its answer for
the nodes it has climbed. Above a note there are notes up to the first node that
stays (`Resolution.Gapless`). So a search climbs just those nodes on its way
that have no note yet, and when it is over there are notes all the way
(`Resolution.Gapless.notes_noteAll`). What was climbed once is never climbed
again: a chain of removed nodes each stored before its parent takes no more
climbing than any other, although every search in it would go the way of the one
before.

`Resolution.Searched` is the invariant of the searches, kept by one more of them
(`Resolution.Searched.step`), and `Forest.compact_searches` is what it comes to.
-/

set_option autoImplicit false

namespace ParseForest

namespace Forest.Climb

variable {forest : Forest} {start ancestor : Option NodeId} {path : List NodeId} {k p : NodeId}

/-- A climb from a removed node comes by that node. -/
theorem mem_of_start (h : forest.Climb (some p) path ancestor) (hgone : forest.keptAt p = false) :
    p ∈ path := by
  cases h with
  | kept hkept => simp [hkept] at hgone
  | removed _ _ _ => exact List.mem_cons_self

/-- After a node the climb comes by its parent, if that is removed. -/
theorem mem_of_parent (h : forest.Climb start path ancestor) (hk : k ∈ path)
    (hp : forest.parent? k = some p) (hgone : forest.keptAt p = false) : p ∈ path := by
  induction h with
  | top => cases hk
  | kept _ => cases hk
  | removed _ _ hrest ih =>
    rcases List.mem_cons.1 hk with rfl | hk
    · rw [hp] at hrest
      exact List.mem_cons_of_mem _ (hrest.mem_of_start hgone)
    · exact List.mem_cons_of_mem _ (ih hk)

/-- What passes from a slot on to its parent, if that is removed, holds all
along the climb from above a slot for which it holds. The induction is on the
climb. -/
theorem forall_mem {P : NodeId → Prop}
    (hup : ∀ k p, P k → forest.parent? k = some p → forest.keptAt p = false → P p)
    (h : forest.Climb (forest.parent? k) path ancestor) (hk : P k) : ∀ a ∈ path, P a := by
  generalize hstart : forest.parent? k = start at h
  induction h generalizing k with
  | top => exact fun _ ha => absurd ha List.not_mem_nil
  | kept _ => exact fun _ ha => absurd ha List.not_mem_nil
  | @removed id path ancestor _ hgone _ ih =>
    have hid := hup k id hk hstart hgone
    exact List.forall_mem_cons.2 ⟨hid, ih hid rfl⟩

end Forest.Climb

namespace Resolution

variable {forest : Forest} {resolution : Resolution} {id k : NodeId} {node : Node}
  {start ancestor : Option NodeId} {way : List NodeId}

/-- One search for a nearest kept node. -/
structure Search where
  /-- What is known when the search starts. -/
  before : Resolution
  /-- The node in the slot that the search is made for. It starts from the
  parent. -/
  node : Node
  /-- The answer. -/
  ancestor : Option NodeId
  /-- The removed nodes climbed. -/
  path : Array NodeId
deriving DecidableEq, Repr

/-- The search made for a slot. -/
def search (resolution : Resolution) (id : NodeId) : Except Fault Search := do
  let node ← resolution.forest.fetch id
  let (ancestor, path) ← resolution.climb node.parent
  return { before := resolution, node := node, ancestor := ancestor, path := path }

namespace Search

/-- What is known when the search is over: the answer is noted for the nodes
climbed. -/
def after (search : Search) : Resolution :=
  search.path.foldl (note · search.ancestor) search.before

/-- What is known when the slot has been dealt with, too. -/
def settle (search : Search) (id : NodeId) : Resolution :=
  if search.node.removed then search.after.note search.ancestor id
  else { search.after with
    forest := search.after.forest.modify id fun node => { node with parent := search.ancestor } }

end Search

/-- To deal with a slot is to make a search for it and to take the answer. So
what is proved of searches is proved of the pass. -/
theorem resolve_eq_search (resolution : Resolution) (id : NodeId) :
    resolution.resolve id = (resolution.search id).map (·.settle id) := by
  rw [resolve, search]
  cases resolution.forest.fetch id with
  | error fault => rfl
  | ok node =>
    rw [except_ok_bind, except_ok_bind]
    cases resolution.climb node.parent with
    | error fault => rfl
    | ok found =>
      rw [except_ok_bind, except_ok_bind]
      show _ = Except.ok (Search.settle _ id)
      rw [Search.settle, apply_ite Except.ok]
      rfl

/-- The searches for the slots below `count`, in order. -/
def searches (forest : Forest) : (count : Nat) → Except Fault (List Search)
  | 0 => .ok []
  | count + 1 => do
    let made ← searches forest count
    let resolution ← resolved forest count
    let search ← resolution.search count
    return made ++ [search]

/-- The removed nodes that are climbed, search by search. -/
def climbed (made : List Search) : List NodeId := made.flatMap fun search => search.path.toList

/-- The slot `count` is dealt with after those below it. -/
theorem resolved_succ (forest : Forest) (count : Nat) :
    resolved forest (count + 1) =
      resolved forest count >>= fun resolution => resolution.resolve count :=
  foldlM_range_succ _ _ _

/-- What one more search climbs comes behind what the others did. -/
theorem climbed_concat (made : List Search) (search : Search) :
    climbed (made ++ [search]) = climbed made ++ search.path.toList := by
  rw [climbed, List.flatMap_append, List.flatMap_singleton, climbed]

/-- More notes leave none out. A note may be made anew, but none is taken
back. -/
theorem noteAll_ne_none (ids : List NodeId) (h : resolution.notes[k]?.join ≠ none) :
    (ids.foldl (note · ancestor) resolution).notes[k]?.join ≠ none := by
  rw [notes_noteAll]
  split
  · exact Option.some_ne_none _
  · exact h

/-! ### Notes without gaps -/

/-- The notes leave no gaps: above a node with a note the removed nodes have
notes, up to the first node that stays. -/
structure Gapless (forest : Forest) (resolution : Resolution) : Prop where
  size_eq : resolution.notes.size = forest.size
  above : ∀ k p : NodeId, resolution.notes[k]?.join ≠ none → forest.parent? k = some p →
    forest.keptAt p = false → resolution.notes[p]?.join ≠ none

/-- At first there are no notes, and so no gaps among them. -/
theorem gapless_ofForest (forest : Forest) : Gapless forest (ofForest forest) where
  size_eq := Array.size_replicate
  above k _ hk := absurd (notes_ofForest forest k) hk

namespace Gapless

/-- Behind the first note on the way of a climb there are only notes. So to stop
at the first is to climb just the nodes that have none. -/
theorem takeWhile_eq_filter (h : Gapless forest resolution)
    (hclimb : forest.Climb start way ancestor) :
    (way.takeWhile fun k => resolution.notes[k]?.join = none) =
      way.filter fun k => resolution.notes[k]?.join = none := by
  induction hclimb with
  | top => rfl
  | kept _ => rfl
  | @removed id way ancestor _ _ hrest ih =>
    by_cases hnote : resolution.notes[id]?.join = none
    · rw [List.takeWhile_cons_of_pos (by simpa using hnote),
        List.filter_cons_of_pos (by simpa using hnote), ih]
    · have hnotes := hrest.forall_mem (P := fun k => resolution.notes[k]?.join ≠ none) h.above hnote
      rw [List.takeWhile_cons_of_neg (by simpa using hnote),
        List.filter_cons_of_neg (by simpa using hnote), List.filter_eq_nil_iff.2]
      exact fun a ha => by simpa using hnotes a ha

/-- When a search is over, the nodes on its way have its answer for a note:
those that it has climbed, and above them those that had the note before. -/
theorem notes_noteAll (h : Gapless forest resolution) (hnoted : Noted forest resolution)
    (hclimb : forest.Climb start way ancestor) (k : NodeId) :
    ((way.takeWhile fun k => resolution.notes[k]?.join = none).foldl
        (Resolution.note · ancestor) resolution).notes[k]?.join =
      if k ∈ way then some ancestor else resolution.notes[k]?.join := by
  rw [Resolution.notes_noteAll, h.takeWhile_eq_filter hclimb, h.size_eq]
  by_cases hk : k ∈ way
  · obtain ⟨hlt, -, rest, hrest, -⟩ := hclimb.of_mem hk
    cases hnote : resolution.notes[k]?.join with
    | none => simp [hk, hlt, hnote]
    | some known =>
      -- The old note names what the climb comes to as well, for there is one climb from there.
      obtain ⟨-, -, rest', hrest'⟩ := hnoted k known hnote
      simp [hk, hnote, (hrest'.unique hrest).2]
  · simp [hk]

/-- When a search is over, there are still no gaps. The new notes reach up to
where the old ones begin, or to the end of the way. -/
theorem noteAll (h : Gapless forest resolution) (hnoted : Noted forest resolution)
    (hclimb : forest.Climb start way ancestor) :
    Gapless forest ((way.takeWhile fun k => resolution.notes[k]?.join = none).foldl
      (Resolution.note · ancestor) resolution) := by
  refine ⟨(size_notes_noteAll _ _ _).trans h.size_eq, fun k p hk hp hgone => ?_⟩
  rw [h.notes_noteAll hnoted hclimb] at hk
  -- The way goes on from a node on it to its parent; elsewhere nothing has changed.
  by_cases hway : k ∈ way
  · rw [h.notes_noteAll hnoted hclimb, if_pos (hclimb.mem_of_parent hway hp hgone)]
    exact Option.some_ne_none _
  · rw [if_neg hway] at hk
    exact noteAll_ne_none _ (h.above k p hk hp hgone)

/-- Nor are there when the answer is noted for the slot itself, since all
removed nodes above it have been noted. -/
theorem note (h : Gapless forest resolution)
    (hclimb : forest.Climb (forest.parent? id) way ancestor)
    (hway : ∀ k ∈ way, resolution.notes[k]?.join = some ancestor) :
    Gapless forest (resolution.note ancestor id) := by
  refine ⟨(size_notes_noteAll _ _ [id]).trans h.size_eq, fun k p hk hp hgone => ?_⟩
  refine noteAll_ne_none [id] ?_
  by_cases heq : k = id
  · -- The node above the slot, if it is removed, is the first on the way.
    rw [← heq, hp] at hclimb
    rw [hway p (hclimb.mem_of_start hgone)]
    exact Option.some_ne_none _
  · have hnote := Resolution.notes_noteAll resolution ancestor [id] k
    rw [if_neg (by simp [heq])] at hnote
    exact h.above k p (hnote ▸ hk) hp hgone

end Gapless

/-! ### One search -/

/-- What is known when the slots below `count` have been dealt with. -/
structure Known (forest : Forest) (count : Nat) (resolution : Resolution) : Prop where
  /-- The pass comes to know it. -/
  resolved_eq : resolved forest count = .ok resolution
  /-- The nodes that stay have new parents below `count`, and all other nodes
  are as they were. -/
  resolved : Resolved forest count resolution
  /-- Every note is made for a removed node and names the nearest node above it
  that stays, over the parents as they were, or says that there is none. -/
  noted : Noted forest resolution
  gapless : Gapless forest resolution

/-- Before the first slot all that is to be known is known. -/
theorem known_ofForest (forest : Forest) : Known forest 0 (ofForest forest) where
  resolved_eq := rfl
  resolved := resolved_ofForest forest
  noted := noted_ofForest forest
  gapless := gapless_ofForest forest

/-- What is to be said of the search made for the slot `k`. -/
structure Search.Right (forest : Forest) (k : NodeId) (search : Search) : Prop where
  /-- It is made when the slots below have been dealt with. -/
  known_before : Known forest k search.before
  /-- It starts from the parent that the node had at first. -/
  node_eq : forest[k]? = some search.node
  /-- It finds the nearest node from there on that stays, over the parents as
  they were. Of the removed nodes on the way it climbs those that have no note,
  and all of them have the answer for a note when it is over. There are no other
  new notes. -/
  exists_way : ∃ way, forest.Climb search.node.parent way search.ancestor ∧
    (search.path.toList = way.filter fun j => search.before.notes[j]?.join = none) ∧
    ∀ j : NodeId, search.after.notes[j]?.join =
      if j ∈ way then some search.ancestor else search.before.notes[j]?.join
  /-- All notes are right then, -/
  noted_after : Noted forest search.after
  /-- and with the answer the slot has been dealt with. -/
  known_settle : Known forest (k + 1) (search.settle k)

namespace Search

/-- The search that goes the way of a climb up to the first note. -/
def along (resolution : Resolution) (node : Node) (way : List NodeId) (ancestor : Option NodeId) :
    Search where
  before := resolution
  node := node
  ancestor := ancestor
  path := (way.takeWhile fun k => resolution.notes[k]?.join = none).toArray

/-- What a search along a climb leaves are the notes for the nodes before the
first that had one. -/
theorem after_along (resolution : Resolution) (node : Node) (way : List NodeId)
    (ancestor : Option NodeId) :
    (along resolution node way ancestor).after =
      (way.takeWhile fun k => resolution.notes[k]?.join = none).foldl
        (note · ancestor) resolution :=
  List.foldl_toArray ..

/-- A note that there is when the search is over stays when the slot is dealt
with. -/
theorem settle_ne_none {search : Search} (h : search.after.notes[k]?.join ≠ none) :
    (search.settle id).notes[k]?.join ≠ none := by
  rw [settle]
  split
  · exact noteAll_ne_none [id] h
  · exact h

end Search

/-- The search for a slot starts from the parent that the node had at first:
only slots below have new parents by then. It goes the way of the climb from
there. -/
theorem Resolved.search_eq (h : Resolved forest id resolution) (hnode : forest[id]? = some node)
    (hclimb : forest.Climb node.parent way ancestor) :
    resolution.search id = .ok (.along resolution node way ancestor) := by
  obtain ⟨node', hfetch, -, hsame⟩ := h.fetch_eq (Array.getElem?_eq_some_iff.1 hnode).1
  have hnode' := hsame (Or.inr (Nat.le_refl id))
  rw [hnode] at hnode'
  cases hnode'
  rw [search, hfetch, except_ok_bind, h.climb_eq hclimb]
  rfl

namespace Known

/-- The search for a slot and its answer leave no gaps. -/
theorem gapless_settle (h : Known forest id resolution) (hnode : forest[id]? = some node)
    (hclimb : forest.Climb node.parent way ancestor) :
    Gapless forest ((Search.along resolution node way ancestor).settle id) := by
  have hgapless := h.gapless.noteAll h.noted hclimb
  have hnotes := h.gapless.notes_noteAll h.noted hclimb
  rw [← Search.after_along resolution node way ancestor] at hgapless hnotes
  rw [Search.settle]
  split
  · rw [← Forest.parent?_eq hnode] at hclimb
    exact hgapless.note hclimb fun k hk => (hnotes k).trans (if_pos hk)
  · exact ⟨hgapless.size_eq, hgapless.above⟩

/-- With the answer of the search one more slot has been dealt with. Each of the
four things known is kept. -/
theorem settle (h : Known forest id resolution) (hnode : forest[id]? = some node)
    (hclimb : forest.Climb node.parent way ancestor) :
    Known forest (id + 1) ((Search.along resolution node way ancestor).settle id) := by
  have hresolve := resolve_eq_search resolution id
  rw [h.resolved.search_eq hnode hclimb] at hresolve
  have hgapless := h.gapless_settle hnode hclimb
  rw [← Forest.parent?_eq hnode] at hclimb
  obtain ⟨resolution', hok, hresolved, hnoted⟩ :=
    h.noted.resolve h.resolved (Array.getElem?_eq_some_iff.1 hnode).1 hclimb
  -- The pass goes on from what the search and its answer leave.
  obtain rfl : _ = resolution' := Except.ok.inj (hresolve.symm.trans hok)
  refine ⟨?_, hresolved, hnoted, hgapless⟩
  rw [resolved_succ, h.resolved_eq, except_ok_bind, hok]

/-- From what is known the next search is right. -/
theorem right (h : Known forest id resolution) (hnode : forest[id]? = some node)
    (hclimb : forest.Climb node.parent way ancestor) :
    (Search.along resolution node way ancestor).Right forest id := by
  constructor
  case known_before => exact h
  case node_eq => exact hnode
  case exists_way =>
    refine ⟨way, hclimb, h.gapless.takeWhile_eq_filter hclimb, fun j => ?_⟩
    rw [Search.after_along]
    exact h.gapless.notes_noteAll h.noted hclimb j
  case noted_after =>
    rw [Search.after_along]
    exact h.noted.noteAll _ hclimb (List.takeWhile_subset _)
  case known_settle => exact h.settle hnode hclimb

end Known

/-! ### All searches -/

/-- The searches for the slots below `count` are made and right, and no removed
node was climbed twice: those that were climbed have notes. -/
structure Searched (forest : Forest) (count : Nat) (made : List Search)
    (resolution : Resolution) : Prop where
  searches_eq : searches forest count = .ok made
  known : Known forest count resolution
  length_eq : made.length = count
  right : ∀ (k : NodeId) (search : Search), made[k]? = some search → search.Right forest k
  nodup : (climbed made).Nodup
  noted : ∀ k ∈ climbed made, resolution.notes[k]?.join ≠ none

/-- Before the first slot no search was made, and nothing was climbed. -/
theorem searched_ofForest (forest : Forest) : Searched forest 0 [] (ofForest forest) where
  searches_eq := rfl
  known := known_ofForest forest
  length_eq := rfl
  right _ _ hk := by cases hk
  nodup := List.nodup_nil
  noted _ hk := absurd hk List.not_mem_nil

namespace Searched

variable {made : List Search} {search : Search}

/-- A right search behind others climbs none of the nodes that they climbed.
Those have notes, and a search climbs only nodes without. -/
theorem nodup_concat (h : Searched forest id made search.before) (hright : search.Right forest id) :
    (climbed (made ++ [search])).Nodup := by
  obtain ⟨way, hclimb, hpath, -⟩ := hright.exists_way
  rw [climbed_concat, hpath]
  refine List.nodup_append.2 ⟨h.nodup, hclimb.nodup.filter _, ?_⟩
  -- Only nodes without a note are climbed, and those climbed before have one.
  rintro k hk j hj rfl
  exact h.noted k hk (of_decide_eq_true (List.mem_filter.1 hj).2)

/-- Behind it all nodes climbed have notes, the new ones because it made
them. -/
theorem noted_concat (h : Searched forest id made search.before) (hright : search.Right forest id) :
    ∀ k ∈ climbed (made ++ [search]), (search.settle id).notes[k]?.join ≠ none := by
  obtain ⟨way, -, hpath, hnotes⟩ := hright.exists_way
  intro k hk
  refine Search.settle_ne_none ?_
  rw [hnotes]
  split
  · exact Option.some_ne_none _
  · rename_i hway
    rw [climbed_concat, List.mem_append, hpath] at hk
    rcases hk with hk | hk
    · exact h.noted k hk
    · exact absurd (List.mem_of_mem_filter hk) hway

/-- One more search is made, and what is known behind it is what the next one
needs. -/
theorem step (h : Searched forest id made resolution) (hnode : forest[id]? = some node)
    (hclimb : forest.Climb node.parent way ancestor) :
    ∃ made' resolution', Searched forest (id + 1) made' resolution' := by
  have hsearch := h.known.resolved.search_eq hnode hclimb
  have hright := h.known.right hnode hclimb
  refine ⟨made ++ [.along resolution node way ancestor],
    (Search.along resolution node way ancestor).settle id, ?_⟩
  constructor
  case searches_eq =>
    rw [searches, h.searches_eq, except_ok_bind, h.known.resolved_eq, except_ok_bind, hsearch]
    rfl
  case known => exact hright.known_settle
  case length_eq => rw [List.length_append, h.length_eq]; rfl
  case right =>
    intro k search hk
    -- Only the search that was added last is new.
    rcases Nat.lt_trichotomy k made.length with hlt | heq | hgt
    · rw [List.getElem?_append_left hlt] at hk
      exact h.right k search hk
    · rw [heq, List.getElem?_concat_length] at hk
      cases hk
      rw [heq, h.length_eq]
      exact hright
    · rw [List.getElem?_eq_none (by simpa using Nat.succ_le_of_lt hgt)] at hk
      cases hk
  case nodup => exact h.nodup_concat hright
  case noted => exact h.noted_concat hright

end Searched

/-- If the climb from every slot ends, a search is made for each, by induction
on how many were made. -/
theorem exists_searched
    (hclimbs : ∀ k, ∃ way ancestor, forest.Climb (forest.parent? k) way ancestor)
    (count : Nat) (hcount : count ≤ forest.size) :
    ∃ made resolution, Searched forest count made resolution := by
  induction count with
  | zero => exact ⟨[], _, searched_ofForest forest⟩
  | succ id ih =>
    obtain ⟨made, resolution, h⟩ := ih (Nat.le_of_succ_le hcount)
    have hnode := Array.getElem?_eq_getElem (Nat.lt_of_succ_le hcount)
    obtain ⟨way, ancestor, hclimb⟩ := hclimbs id
    rw [Forest.parent?_eq hnode] at hclimb
    exact h.step hnode hclimb

end Resolution

namespace Forest

/-- Let the parents be in the array, and let no circle of them go through
removed nodes alone. Then compaction makes a search for every slot, and of each
search there is this to say:

* When it starts, every note is made for a removed node and names the nearest
  node above it that stays, over the parents as they were, or says that there is
  none.
* It finds the nearest node that stays from the parent of its slot on, over the
  parents as they were, although nodes in lower slots have other parents by
  then.
* It climbs the removed nodes on its way that have no note. When it is over all
  removed nodes on the way have its answer for a note, and all other notes are
  as they were.

No node is climbed twice, in one search or in two. -/
theorem compact_searches (forest : Forest) (hclosed : forest.Closed)
    (hcycle : forest.NoRemovedCycle) :
    ∃ made, Resolution.searches forest forest.size = .ok made ∧ made.length = forest.size ∧
      (∀ (k : NodeId) (search : Resolution.Search), made[k]? = some search →
        search.Right forest k) ∧
      (Resolution.climbed made).Nodup := by
  obtain ⟨made, resolution, h⟩ :=
    Resolution.exists_searched (hcycle.exists_climb hclosed) forest.size (Nat.le_refl _)
  exact ⟨made, h.searches_eq, h.length_eq, h.right, h.nodup⟩

/-- Three removed nodes, each stored before its parent, on a circle with a node
that stays, and two nodes under the first and the second of them. -/
def backwards : Forest := #[
  { Node.fresh "leaf" (some 2) 0 with length := 1 },
  { Node.fresh "again" (some 3) 1 with collects := true },
  { Node.fresh "low" (some 3) 0 with removed := true },
  { Node.fresh "between" (some 4) 0 with removed := true },
  { Node.fresh "high" (some 5) 0 with removed := true },
  { Node.fresh "stays" (some 2) 0 with length := 2 }]

/-- The hypotheses hold of `backwards`. The first search climbs all three
removed nodes, and the second one climbs none, although its way goes by two of
them. -/
theorem compact_searches_backwards :
    backwards.Closed ∧ backwards.NoRemovedCycle ∧
      ∃ made, Resolution.searches backwards 6 = .ok made ∧
        Resolution.climbed made = [2, 3, 4] ∧ (Resolution.climbed made).Nodup ∧
        ∃ search, made[1]? = some search ∧ search.Right backwards 1 ∧
          search.ancestor = some 5 ∧ search.path = #[] := by
  have hclosed : backwards.Closed := by decide
  have hcycle : backwards.NoRemovedCycle := by decide +kernel
  obtain ⟨made, hmade, -, hright, hnodup⟩ := compact_searches backwards hclosed hcycle
  have hpaths : (Resolution.searches backwards 6).map Resolution.climbed = .ok [2, 3, 4] := by
    decide +kernel
  -- The second search comes to a note at once.
  have hagain : (Resolution.searches backwards 6).map
      (fun made => made[1]?.map fun search => (search.ancestor, search.path)) =
        .ok (some (some 5, #[])) := by
    decide +kernel
  have hmade : Resolution.searches backwards 6 = .ok made := hmade
  rw [hmade] at hpaths hagain
  obtain ⟨search, hsearch, hfound⟩ := Option.map_eq_some_iff.1 (Except.ok.inj hagain)
  obtain ⟨hancestor, hpath⟩ := Prod.mk.inj hfound
  exact ⟨hclosed, hcycle, made, hmade, Except.ok.inj hpaths, hnodup, search, hsearch,
    hright 1 search hsearch, hancestor, hpath⟩

end Forest

end ParseForest
