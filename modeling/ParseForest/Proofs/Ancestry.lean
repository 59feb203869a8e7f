import Mathlib.Data.Fintype.Card
import Mathlib.Logic.Relation
import ParseForest.NodeId

/-!
# `ParseForest.Proofs.Ancestry`: what lies above a slot

A `WayUp` says of each slot which slot is directly above it. The parents of a
forest are one, and so are the parents the nodes are to have after a pass. This
module knows nothing of nodes. It has the vocabulary that the passes are
described in:

* `WayUp.Above` and `WayUp.AtOrAbove`: to be met on the way up, strictly or not;
* `WayUp.Within`: only the slots of the array have something above them;
* `WayUp.Acyclic`: no slot is above itself;
* `WayUp.ascent`: the slots met over a number of links, nearest first;
* `WayUp.Stretch`: the part of the way up between two slots, for loops that
  climb it.

`WayUp.mem_ascent_iff` shows that as many links as there are slots are enough to
meet everything above a slot, whether there are cycles or not. Hence `Above` is
decidable. Where there are none, `WayUp.ascent_of_up` lets a proof follow the
way up link by link without counting the links, and `WayUp.Acyclic.induction`
goes down again.
-/

set_option autoImplicit false

namespace ParseForest

open Relation

/-- For each slot the slot directly above it, if there is one. -/
abbrev WayUp := NodeId → Option NodeId

namespace WayUp

variable {up : WayUp} {size : Nat} {a b k p : NodeId}

/-- One link of the way up leads from `k` to `p`. -/
def Link (up : WayUp) (k p : NodeId) : Prop := up k = some p

/-- The way up from `k` comes to `a` over at least one link. -/
def Above (up : WayUp) (a k : NodeId) : Prop := TransGen up.Link k a

/-- The way up from `k` comes to `a`, perhaps because it starts there. -/
def AtOrAbove (up : WayUp) (a k : NodeId) : Prop := ReflTransGen up.Link k a

/-- Only slots of an array of `size` nodes have something above them. -/
def Within (up : WayUp) (size : Nat) : Prop := ∀ k p, up k = some p → k < size

/-- No slot is above itself. -/
def Acyclic (up : WayUp) : Prop := ∀ k, ¬ up.Above k k

/-- The slots met on the way up from a slot, nearest first, over at most `links`
links. -/
def ascent (up : WayUp) : (links : Nat) → NodeId → List NodeId
  | 0, _ => []
  | links + 1, k =>
    match up k with
    | none => []
    | some p => p :: ascent up links p

/-- The way up from a slot to another one goes through the slots of a list, in
order, the first of the two included and the second not. -/
inductive Stretch (up : WayUp) : NodeId → List NodeId → NodeId → Prop
  | nil (k : NodeId) : Stretch up k [] k
  | cons {k p b : NodeId} {path : List NodeId} :
    up k = some p → Stretch up p path b → Stretch up k (k :: path) b

/-! ### One link at a time -/

/-- What is above a slot is directly above it, or above what is. This takes the
first link off the way up; `above_iff_exists_down` takes off the last. -/
theorem above_iff : up.Above a k ↔ ∃ p, up k = some p ∧ up.AtOrAbove a p :=
  TransGen.head'_iff

/-- What is above a slot with something directly above it is that or above that:
there is only one way up, so the first link is known. -/
theorem above_iff_of_up (h : up k = some p) : up.Above a k ↔ up.AtOrAbove a p := by
  rw [above_iff]
  constructor
  · rintro ⟨q, hq, ha⟩
    rw [h] at hq
    cases hq
    exact ha
  · exact fun ha => ⟨p, h, ha⟩

/-- Nothing is above a slot with nothing directly above it, since every way up
has a first link. -/
theorem not_above_of_up_none (h : up k = none) : ¬ up.Above a k := by
  rw [above_iff]
  rintro ⟨p, hp, -⟩
  rw [h] at hp
  cases hp

/-- At or above a slot is the slot itself and what is above it. -/
theorem atOrAbove_iff : up.AtOrAbove a k ↔ a = k ∨ up.Above a k :=
  reflTransGen_iff_eq_or_transGen

/-- Every slot is at or above itself. -/
theorem AtOrAbove.refl (k : NodeId) : up.AtOrAbove k k := ReflTransGen.refl

/-- At or above a slot with nothing directly above it there is only the slot
itself. -/
theorem AtOrAbove.eq_of_up_none (h : up.AtOrAbove a k) (hk : up k = none) : a = k :=
  (atOrAbove_iff.1 h).resolve_right (not_above_of_up_none hk)

/-- What is above a slot is at or above it. -/
theorem Above.atOrAbove (h : up.Above a k) : up.AtOrAbove a k := TransGen.to_reflTransGen h

/-- What is above something above a slot is above the slot: ways up can be put
together. -/
theorem Above.trans (hab : up.Above a b) (hb : up.Above b k) : up.Above a k :=
  TransGen.trans hb hab

/-- What is directly above a slot is above it. -/
theorem above_of_up (h : up k = some p) : up.Above p k := TransGen.single h

/-- If every link of one way up is climbed by another one, so is the whole way.
This compares the ways up before and after a pass, where one new link may stand
for several old ones. -/
theorem Above.of_links {up' : WayUp} (hlinks : ∀ k p, up k = some p → up'.Above p k)
    (h : up.Above a k) : up'.Above a k :=
  TransGen.closed hlinks k a h

/-- There is one way up, so of two slots on it one is at or above the other. -/
theorem AtOrAbove.total (ha : up.AtOrAbove a k) (hb : up.AtOrAbove b k) :
    up.AtOrAbove b a ∨ up.AtOrAbove a b :=
  ReflTransGen.total_of_right_unique
    (fun _ _ _ hx hy => Option.some.inj (hx.symm.trans hy)) ha hb

/-- If a way up comes to an end, it does so from each slot on it. So what is
known of the end of a way up is known of every slot on the way. -/
theorem AtOrAbove.of_end (hb : up.AtOrAbove b k) (hend : up b = none) (ha : up.AtOrAbove a k) :
    up.AtOrAbove b a := by
  rcases ha.total hb with hba | hab
  · exact hba
  · rw [hab.eq_of_up_none hend]
    exact AtOrAbove.refl b

/-! ### Stretches -/

namespace Stretch

variable {path : List NodeId}

/-- A stretch goes on over one more link, beyond the slot where it ended. -/
theorem snoc (h : up.Stretch k path b) (hb : up b = some p) :
    up.Stretch k (path ++ [b]) p := by
  induction h with
  | nil k => exact .cons hb (.nil p)
  | cons hk _ ih => exact .cons hk (ih hb)

/-- The end of a stretch is at or above its start; they are the same slot if the
stretch is empty. -/
theorem atOrAbove (h : up.Stretch k path b) : up.AtOrAbove b k := by
  induction h with
  | nil k => exact AtOrAbove.refl k
  | cons hk _ ih => exact ReflTransGen.head hk ih

/-- The slots of a stretch are on the way up from its start, and its end is
above them. The end itself is not among the slots, so nothing is said of a
circle here. -/
theorem between (h : up.Stretch k path b) (ha : a ∈ path) :
    up.AtOrAbove a k ∧ up.Above b a := by
  induction h with
  | nil k => cases ha
  | cons hk hrest ih =>
    rcases List.mem_cons.1 ha with rfl | ha
    · exact ⟨AtOrAbove.refl a, (above_iff_of_up hk).2 hrest.atOrAbove⟩
    · obtain ⟨hak, hba⟩ := ih ha
      exact ⟨ReflTransGen.head hk hak, hba⟩

/-- All slots on the way up from the start are in the stretch or from its end
on. A loop that climbed the stretch has thus met everything that comes before
its end. -/
theorem mem_or_atOrAbove (h : up.Stretch k path b) (ha : up.AtOrAbove a k) :
    a ∈ path ∨ up.AtOrAbove a b := by
  induction h with
  | nil k => exact Or.inr ha
  | cons hk _ ih =>
    rcases atOrAbove_iff.1 ha with rfl | ha
    · exact Or.inl List.mem_cons_self
    · exact (ih ((above_iff_of_up hk).1 ha)).imp_left (List.mem_cons_of_mem _)

end Stretch

/-! ### Ways up without cycles -/

/-- A number that shrinks with every link rules out cycles. For an array in
which every parent comes before its children, the number is the slot. -/
theorem acyclic_of_measure (f : NodeId → Nat) (hf : ∀ k p, up k = some p → f p < f k) :
    up.Acyclic := by
  have habove : ∀ {a k}, up.Above a k → f a < f k := by
    intro a k h
    induction h with
    | single hlink => exact hf _ _ hlink
    | tail _ hlink ih => exact Nat.lt_trans (hf _ _ hlink) ih
  exact fun k hk => Nat.lt_irrefl _ (habove hk)

/-- A way up that ends at a slot with nothing above it meets no slot twice.
Other ways up may go around in circles: this speaks of one slot only. -/
theorem not_above_self_of_end (hend : up b = none) (h : up.AtOrAbove b k) : ¬ up.Above k k := by
  induction h using ReflTransGen.head_induction_on with
  | refl => exact not_above_of_up_none hend
  | head hlink _ ih =>
    rename_i c p _
    intro hc
    -- If `c` were above itself, so would be the slot directly above it.
    have hcp : up.AtOrAbove c p := (above_iff_of_up hlink).1 hc
    exact ih (TransGen.tail' hcp hlink)

open Classical in
/-- How many slots with something above them the way up from a slot goes
through. -/
private noncomputable def height (up : WayUp) (size : Nat) (k : NodeId) : Nat :=
  ((Finset.range size).filter fun a => up.AtOrAbove a k ∧ (up a).isSome).card

/-- The height of a slot is no more than the number of slots. -/
private theorem height_le (up : WayUp) (size : Nat) (k : NodeId) : up.height size k ≤ size := by
  classical
  exact (Finset.card_filter_le _ _).trans (Finset.card_range size).le

/-- Without cycles the slots at or above `p` are fewer than those at or above a
slot that has `p` above it, because that slot itself is not among them. -/
private theorem height_lt (hwithin : up.Within size) (hk : ¬ up.Above k k) (h : up k = some p) :
    up.height size p < up.height size k := by
  classical
  refine Finset.card_lt_card (Finset.ssubset_iff_of_subset ?_ |>.2 ⟨k, ?_, ?_⟩)
  · intro a ha
    simp only [Finset.mem_filter] at ha ⊢
    exact ⟨ha.1, ((above_iff_of_up h).2 ha.2.1).atOrAbove, ha.2.2⟩
  · -- Only slots with something above them are counted, so that `size` is enough for all.
    simp only [Finset.mem_filter, Finset.mem_range, h, Option.isSome_some, and_true]
    exact ⟨hwithin k p h, AtOrAbove.refl k⟩
  · simp only [Finset.mem_filter, not_and]
    exact fun _ hkp => absurd ((above_iff_of_up h).2 hkp) hk

/-- Any numbers of links that cover the height show the same slots: from the
slot where the way up ends there is nothing more to show. -/
private theorem ascent_eq_of_height_le (hwithin : up.Within size) (hacyclic : up.Acyclic)
    (m n : Nat) (hm : up.height size k ≤ m) (hn : up.height size k ≤ n) :
    up.ascent m k = up.ascent n k := by
  induction m generalizing n k with
  | zero =>
    cases hk : up k with
    | none => cases n <;> simp [ascent, hk]
    | some p =>
      -- No number of links below the height comes with something above the slot.
      have := height_lt hwithin (hacyclic k) hk
      omega
  | succ m ih =>
    cases hk : up k with
    | none => cases n <;> simp [ascent, hk]
    | some p =>
      have hlt := height_lt hwithin (hacyclic k) hk
      cases n with
      | zero => omega
      | succ n =>
        simp only [ascent, hk]
        rw [ih n (by omega) (by omega)]

/-- Nothing is met on the way up from a slot with nothing above it, over however
many links. -/
theorem ascent_of_up_none (h : up k = none) (links : Nat) : up.ascent links k = [] := by
  cases links <;> simp [ascent, h]

/-- Without cycles the slots met from `k` are the one directly above it and then
those met from there: the number of links makes no difference. A proof that
follows a climb need not count its links. -/
theorem ascent_of_up (hwithin : up.Within size) (hacyclic : up.Acyclic) (h : up k = some p) :
    up.ascent size k = p :: up.ascent size p := by
  have hlt := height_lt hwithin (hacyclic k) h
  have hle := height_le up size k
  cases size with
  | zero => omega
  | succ n =>
    rw [ascent]
    simp only [h]
    rw [ascent_eq_of_height_le hwithin hacyclic n (n + 1) (by omega) (by omega)]

/-- What holds of a slot whenever it holds of the slot directly above it, if
there is one, holds of all slots. The induction is on how far the way up goes,
which is finite as it meets no slot twice. -/
theorem Acyclic.induction (hacyclic : up.Acyclic) (hwithin : up.Within size)
    {motive : NodeId → Prop} (step : ∀ k, (∀ p, up k = some p → motive p) → motive k)
    (k : NodeId) : motive k := by
  induction hn : up.height size k using Nat.strongRecOn generalizing k with
  | ind n ih =>
    refine step k fun p hp => ih (up.height size p) ?_ p rfl
    rw [← hn]
    exact height_lt hwithin (hacyclic k) hp

/-- The links of a way up that lead to slots of some kind. -/
def among (up : WayUp) (kind : NodeId → Bool) : WayUp := fun k => (up k).filter kind

/-- A link to slots of some kind is a link whose end is of that kind. -/
theorem among_eq_some_iff {kind : NodeId → Bool} :
    up.among kind k = some p ↔ up k = some p ∧ kind p = true :=
  Option.filter_eq_some_iff

/-- Links to slots of one kind go around in no circle if every circle of the
whole way up comes by a slot of another kind. For removed nodes this says that
climbs over them end. -/
theorem among_acyclic {kind : NodeId → Bool}
    (hcircle : ∀ k, up.Above k k → ∃ a, up.Above a k ∧ up.Above k a ∧ kind a = false) :
    (up.among kind).Acyclic := by
  intro k hk
  have hlinks : ∀ j p, up.among kind j = some p → up.Above p j := by
    intro j p hp
    exact above_of_up (among_eq_some_iff.1 hp).1
  -- In a circle of links to slots of the kind, the whole way up has nowhere else to go.
  have hnext : ∀ j p, (up.among kind).Above k j → up j = some p →
      (up.among kind).Above k p ∧ kind p = true := by
    intro j p hj hp
    obtain ⟨q, hq, hkq⟩ := above_iff.1 hj
    obtain ⟨hup, hkind⟩ := among_eq_some_iff.1 hq
    rw [hp] at hup
    cases hup
    exact ⟨TransGen.trans_right hkq hk, hkind⟩
  have hstays : ∀ j, up.AtOrAbove j k → (up.among kind).Above k j := by
    intro j hj
    induction hj with
    | refl => exact hk
    | tail _ hlink ih => exact (hnext _ _ ih hlink).1
  obtain ⟨a, ha, -, hkind⟩ := hcircle k (hk.of_links hlinks)
  obtain ⟨j, hj, hlink⟩ := TransGen.tail'_iff.1 ha
  have hkind' := (hnext j a (hstays j hj) hlink).2
  rw [hkind] at hkind'
  cases hkind'

/-! ### Going down -/

/-- What is above a slot is above or at some slot directly below. This takes the
last link off the way up, for proofs that go down. -/
theorem above_iff_exists_down : up.Above a k ↔ ∃ c, up c = some a ∧ up.AtOrAbove c k :=
  TransGen.tail'_iff.trans (exists_congr fun _ => And.comm)

/-- A slot directly below one that is not above itself is not above itself: the
circle that it is on would come by the slot above it. -/
theorem not_above_self_of_up (h : up k = some p) (hp : ¬ up.Above p p) : ¬ up.Above k k :=
  fun hk => hp (TransGen.tail' ((above_iff_of_up h).1 hk) h)

/-- Of two slots with the same slot directly above them, or with nothing above
them, neither is above the other, unless they are on a cycle. -/
theorem not_above_of_up_eq (h : up a = up k) (ha : ¬ up.Above a a) : ¬ up.Above a k := by
  intro hak
  obtain ⟨p, hp, hap⟩ := above_iff.1 hak
  exact ha ((above_iff_of_up (h.trans hp)).2 hap)

open Classical in
/-- How many slots of an array are below a slot. -/
noncomputable def countBelow (up : WayUp) (size : Nat) (k : NodeId) : Nat :=
  ((Finset.range size).filter fun j => up.Above k j).card

/-- Fewer slots are below a slot than below the one directly above it, if that
is not above itself. This is the measure of recursions that go down, which
cycles elsewhere do not disturb. -/
theorem countBelow_lt (hwithin : up.Within size) (hp : ¬ up.Above p p) (h : up k = some p) :
    up.countBelow size k < up.countBelow size p := by
  classical
  have hkk := not_above_self_of_up h hp
  -- The slots below `k` are below `p`, and `k` itself is below `p` alone.
  refine Finset.card_lt_card (Finset.ssubset_iff_of_subset ?_ |>.2 ⟨k, ?_, ?_⟩)
  · intro j hj
    simp only [Finset.mem_filter] at hj ⊢
    exact ⟨hj.1, ((above_iff_of_up h).2 (AtOrAbove.refl p)).trans hj.2⟩
  · simp only [Finset.mem_filter, Finset.mem_range]
    exact ⟨hwithin k p h, (above_iff_of_up h).2 (AtOrAbove.refl p)⟩
  · simp only [Finset.mem_filter, not_and]
    exact fun _ => hkk

/-- What holds of a slot whenever it holds of the slots directly below it holds
of all slots that are not above themselves. No such slot has a cycle below it,
so the way down ends. -/
theorem induction_down (hwithin : up.Within size) {motive : NodeId → Prop}
    (step : ∀ k, ¬ up.Above k k → (∀ c, up c = some k → motive c) → motive k)
    (k : NodeId) (hk : ¬ up.Above k k) : motive k := by
  induction hn : up.countBelow size k using Nat.strongRecOn generalizing k with
  | ind n ih =>
    refine step k hk fun c hc => ih (up.countBelow size c) ?_ c (not_above_self_of_up hc hk) rfl
    rw [← hn]
    exact countBelow_lt hwithin hk hc

/-! ### As many links as slots -/

/-- Over one more link there are the slot directly above and what is met from
there. -/
theorem mem_ascent_succ {links : Nat} :
    a ∈ up.ascent (links + 1) k ↔ ∃ p, up k = some p ∧ (a = p ∨ a ∈ up.ascent links p) := by
  cases h : up k <;> simp [ascent, h]

/-- More links show more slots. -/
theorem mem_ascent_mono {m n : Nat} (hmn : m ≤ n) (h : a ∈ up.ascent m k) :
    a ∈ up.ascent n k := by
  induction m generalizing n k with
  | zero => cases h
  | succ m ih =>
    obtain ⟨n, rfl⟩ : ∃ n', n = n' + 1 := ⟨n - 1, by omega⟩
    obtain ⟨p, hp, rfl | hrest⟩ := mem_ascent_succ.1 h
    · exact mem_ascent_succ.2 ⟨a, hp, Or.inl rfl⟩
    · exact mem_ascent_succ.2 ⟨p, hp, Or.inr (ih (by omega) hrest)⟩

/-- Whatever is met on the way up is above the slot where it started. -/
theorem above_of_mem_ascent {links : Nat} (h : a ∈ up.ascent links k) : up.Above a k := by
  induction links generalizing k with
  | zero => cases h
  | succ links ih =>
    obtain ⟨p, hp, rfl | hrest⟩ := mem_ascent_succ.1 h
    · exact TransGen.single hp
    · exact above_iff.2 ⟨p, hp, (ih hrest).atOrAbove⟩

/-- Everything above a slot is met over some number of links; how many are
enough is `mem_ascent_iff`. -/
private theorem exists_mem_ascent (h : up.Above a k) : ∃ links, a ∈ up.ascent links k := by
  induction h using TransGen.head_induction_on with
  | single hlink => exact ⟨1, mem_ascent_succ.2 ⟨a, hlink, Or.inl rfl⟩⟩
  | head hlink _ ih =>
    obtain ⟨links, hmem⟩ := ih
    exact ⟨links + 1, mem_ascent_succ.2 ⟨_, hlink, Or.inr hmem⟩⟩

open Classical in
/-- A slot that takes no fewer than `links` links to come to `a` goes through
that many different slots on the way, each one link nearer to `a` than the one
before. -/
private theorem le_card_of_mem_ascent (hwithin : up.Within size) (links : Nat)
    (hmem : a ∈ up.ascent links k) (hleast : ∀ m < links, a ∉ up.ascent m k) :
    links ≤ ((Finset.range size).filter fun x => a ∈ up.ascent links x).card := by
  induction links generalizing k with
  | zero => exact Nat.zero_le _
  | succ links ih =>
    have hk : k ∉ (Finset.range size).filter fun x => a ∈ up.ascent links x := by
      simpa using fun _ => hleast links (Nat.lt_succ_self links)
    obtain ⟨p, hp, hrest⟩ := mem_ascent_succ.1 hmem
    -- The slots nearer to `a` are counted from the next slot on; `k` is one more.
    have hcard : links ≤ ((Finset.range size).filter fun x => a ∈ up.ascent links x).card := by
      rcases hrest with rfl | hrest
      · -- The first link leads to `a`, so it takes no more than one.
        have : ¬ 1 < links + 1 := fun hlt =>
          hleast 1 hlt (mem_ascent_succ.2 ⟨a, hp, Or.inl rfl⟩)
        omega
      · refine ih hrest fun m hm hmem' => hleast (m + 1) (by omega) ?_
        exact mem_ascent_succ.2 ⟨p, hp, Or.inr hmem'⟩
    refine Nat.lt_of_le_of_lt hcard (Finset.card_lt_card ?_)
    refine (Finset.ssubset_iff_of_subset fun x hx => ?_).2 ⟨k, ?_, hk⟩
    · simp only [Finset.mem_filter] at hx ⊢
      exact ⟨hx.1, mem_ascent_mono (Nat.le_succ links) hx.2⟩
    · simp only [Finset.mem_filter, Finset.mem_range]
      exact ⟨hwithin k p hp, hmem⟩

/-- Over as many links as there are slots, the way up comes to everything above
a slot. This holds with cycles as well, and makes it decidable what is above a
slot. -/
theorem mem_ascent_iff (hwithin : up.Within size) : a ∈ up.ascent size k ↔ up.Above a k := by
  classical
  refine ⟨above_of_mem_ascent, fun h => ?_⟩
  -- The least number of links that shows `a` goes through as many different slots.
  have hex := exists_mem_ascent h
  have hle : Nat.find hex ≤ size := calc
    Nat.find hex ≤ _ := le_card_of_mem_ascent hwithin (Nat.find hex) (Nat.find_spec hex)
      fun m hm => Nat.find_min hex hm
    _ ≤ (Finset.range size).card := Finset.card_filter_le _ _
    _ = size := Finset.card_range size
  exact mem_ascent_mono hle (Nat.find_spec hex)

end WayUp

end ParseForest
