import ParseForest.Node.Text
import ParseForest.Proofs.Packing.Spans

/-!
# `ParseForest.Proofs.Packing.Text`: the text of a collecting node

The text of a collecting node is that of the siblings it takes in, one behind
the other. The siblings that do not collect have to lie in the text without
gaps, and each of them has to have a text. Those that are to be removed count
like the others, and collecting nodes in between, which cover text that others
have matched, do not.

`Forest.liesAt_join` is the induction along the siblings,
`Forest.textAt?_adoptedWhere` says what adoption makes of it, and
`Forest.pack_text` what is left after packing.
-/

set_option autoImplicit false

namespace ParseForest.Forest

variable {forest : Forest} {ids : List NodeId} {source : String} {text : String}
  {texts : NodeId → String} {c k p first : NodeId}

/-- The text that the node of a slot matched. -/
def textAt? (forest : Forest) (source : String) (k : NodeId) : Option String :=
  forest[k]?.bind fun node => node.text? source

/-- The node of a slot matched what lies where it starts. The text has to be as
long as the node, and to end at a position that 64 bits can name. -/
theorem textAt?_eq_some_iff :
    forest.textAt? source k = some text ↔
      k < forest.size ∧ forest.stopAt k < UInt64.size ∧
        byteLength text.toList = forest.lengthAt k ∧ LiesAt source (forest.startAt k) text := by
  rw [textAt?]
  rcases Nat.lt_or_ge k forest.size with hk | hk
  · have hnode := Array.getElem?_eq_getElem hk
    rw [stopAt, startAt_eq hnode, lengthAt_eq hnode, hnode, Option.bind_some,
      Node.text?_eq_some_iff]
    simp [hk]
  · simp [Nat.not_lt_of_ge hk]

/-- Siblings that do not collect are together as long as their texts. -/
theorem byteLength_join (hplain : ∀ k ∈ ids, forest.collectsAt k = false)
    (htexts : ∀ k ∈ ids, forest.textAt? source k = some (texts k)) :
    byteLength (String.join (ids.map texts)).toList = forest.plainLength ids := by
  induction ids with
  | nil => rfl
  | cons k ids ih =>
    obtain ⟨hk, hplain⟩ := List.forall_mem_cons.1 hplain
    obtain ⟨htext, htexts⟩ := List.forall_mem_cons.1 htexts
    obtain ⟨-, -, hlength, -⟩ := textAt?_eq_some_iff.1 htext
    rw [List.map_cons, String.join_cons, String.toList_append, byteLength_append, hlength,
      ih hplain htexts, plainLength_cons hk]

/-- The texts of siblings that lie without gaps lie one behind the other. The
induction is along the siblings, from the first on. -/
theorem liesAt_join (hchain : ids.IsChain fun a b => forest.stopAt a = forest.startAt b)
    (htexts : ∀ k ∈ ids, forest.textAt? source k = some (texts k))
    (hfirst : ids.head? = some first) :
    LiesAt source (forest.startAt first) (String.join (ids.map texts)) := by
  induction ids generalizing first with
  | nil => cases hfirst
  | cons k ids ih =>
    obtain rfl : k = first := Option.some.inj hfirst
    obtain ⟨htext, htexts⟩ := List.forall_mem_cons.1 htexts
    obtain ⟨-, -, hlength, hlies⟩ := textAt?_eq_some_iff.1 htext
    rw [List.map_cons, String.join_cons]
    cases ids with
    | nil => simpa using hlies
    | cons b ids =>
      obtain ⟨hkb, hchain⟩ := List.isChain_cons_cons.1 hchain
      refine hlies.append ?_
      rw [hlength, ← stopAt, hkb]
      exact ih hchain htexts rfl

/-- After adoption the text of a collecting node is that of the siblings before
it, one behind the other. They end with the last of them, which has a text and
so ends at a position there is. -/
theorem textAt?_adoptedWhere {visited : NodeId → Bool} (hfollow : ∀ d, ¬ forest.CollectsFirst d)
    (hp : forest.parent? c = some p) (hv : visited p = true)
    (hcollects : forest.collectsAt c = true)
    (hchain : (forest.plainChildren p c).IsChain fun a b => forest.stopAt a = forest.startAt b)
    (htexts : ∀ k ∈ forest.plainChildren p c, forest.textAt? source k = some (texts k)) :
    (forest.adoptedWhere visited).textAt? source c =
      some (String.join ((forest.plainChildren p c).map texts)) := by
  have hplain : ∀ k ∈ forest.plainChildren p c, forest.collectsAt k = false :=
    fun k hk => (mem_plainChildren.1 hk).2.2
  obtain ⟨first, hfamily, hfirst⟩ := exists_head?_plainChildren hfollow hp hcollects
  -- They end with the last of them, which has a text and so ends at a position there is.
  obtain ⟨last, hlast, hreach⟩ := reach_eq_of_isChain hchain hfirst
  obtain ⟨-, hstop, -, -⟩ := textAt?_eq_some_iff.1 (htexts last (List.mem_of_getLast? hlast))
  obtain ⟨hstart, hlength⟩ :=
    span_adoptedWhere_of_collects hp hv hcollects hfamily (by omega)
  rw [textAt?_eq_some_iff, size_adoptedWhere, stopAt, hstart, hlength, hreach]
  exact ⟨lt_size_of_parent hp, hstop, byteLength_join hplain htexts,
    liesAt_join hchain htexts hfirst⟩

/-- A node that is packed has the text that it has after adoption. -/
theorem textAt?_packed (source : String) (hk : forest.keptAt k = true) :
    forest.packed.textAt? source (forest.newSlot k) =
      (forest.adoptedWhere forest.walked).textAt? source k := by
  have hlt := lt_size_of_keptAt hk
  have hpacked : forest.newSlot k < forest.packed.size := by
    rw [packed, size_familyLinked, size_keptWhere]
    exact newSlot_lt hk hlt
  ext text
  rw [textAt?_eq_some_iff, textAt?_eq_some_iff, stopAt, stopAt, (span_packed hk).1,
    (span_packed hk).2, size_adoptedWhere]
  simp only [hlt, hpacked]

/-- In what is packed, the text of a collecting node whose parent is walked is
that of the siblings before it that do not collect, one behind the other, if
they lie in the text without gaps and all have a text. -/
theorem pack_text {out : Forest} {events : Array Event}
    (h : forest.pack forest.size = .ok ⟨.ok out, events⟩) (hkept : forest.keptAt c = true)
    (hcollects : forest.collectsAt c = true) (hp : forest.parent? c = some p)
    (hwalked : forest.Walked p)
    (hchain : (forest.plainChildren p c).IsChain fun a b => forest.stopAt a = forest.startAt b)
    (htexts : ∀ k ∈ forest.plainChildren p c, forest.textAt? source k = some (texts k)) :
    out.textAt? source (forest.newSlot c) =
      some (String.join ((forest.plainChildren p c).map texts)) := by
  obtain ⟨-, hcheck, -, rfl⟩ := pack_eq_ok_iff.1 ⟨events, h⟩
  rw [used_size] at hcheck ⊢
  rw [textAt?_packed source hkept]
  exact textAt?_adoptedWhere (check_eq_ok_iff.1 hcheck).2 hp (decide_eq_true hwalked) hcollects
    hchain htexts

/-- A row of words of one to four bytes a character, with a collecting node and
a removed separator in the middle and a collecting node that covers all of
it. -/
def spelled : Forest := #[
  { Node.fresh "row" none 0 with length := 9 },
  { Node.fresh "word" (some 0) 0 with length := 3 },
  { Node.fresh "head" (some 0) 3 with collects := true },
  { Node.fresh "comma" (some 0) 3 with length := 1, removed := true },
  { Node.fresh "word" (some 0) 4 with length := 4 },
  { Node.fresh "mark" (some 0) 8 with length := 1 },
  { Node.fresh "list" (some 0) 9 with collects := true }]

/-- The hypotheses hold of `spelled`, whose characters take up one to four
bytes. The text of the outer collecting node is the whole, with that of the
removed separator and without that of the inner collecting node. -/
theorem pack_text_spelled :
    ∃ events, spelled.pack spelled.size = .ok ⟨.ok spelled.packed, events⟩ ∧
      spelled.keptAt 6 = true ∧ spelled.collectsAt 6 = true ∧ spelled.parent? 6 = some 0 ∧
      spelled.Walked 0 ∧
      ((spelled.plainChildren 0 6).IsChain fun a b => spelled.stopAt a = spelled.startAt b) ∧
      (∀ k ∈ spelled.plainChildren 0 6,
        spelled.textAt? "xé,😀!" k = some ((spelled.textAt? "xé,😀!" k).getD "")) ∧
      spelled.packed.textAt? "xé,😀!" 5 = some "xé,😀!" := by
  have hpack : spelled.pack spelled.size = .ok ⟨.ok spelled.packed,
      #[.absorbed 2 1 0, .absorbed 6 4 0, .packed 7 6]⟩ := by decide +kernel
  have hkept : spelled.keptAt 6 = true := by decide
  have hcollects : spelled.collectsAt 6 = true := by decide
  have hp : spelled.parent? 6 = some 0 := by decide
  have hwalked : spelled.Walked 0 := by decide
  have hchain : (spelled.plainChildren 0 6).IsChain fun a b =>
      spelled.stopAt a = spelled.startAt b := by decide +kernel
  have htexts : ∀ k ∈ spelled.plainChildren 0 6,
      spelled.textAt? "xé,😀!" k = some ((spelled.textAt? "xé,😀!" k).getD "") := by
    decide +kernel
  exact ⟨_, hpack, hkept, hcollects, hp, hwalked, hchain, htexts,
    pack_text hpack hkept hcollects hp hwalked hchain htexts⟩

end ParseForest.Forest
