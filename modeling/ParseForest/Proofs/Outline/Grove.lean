/-!
# `ParseForest.Proofs.Outline.Grove`: two ways to write down a row of trees

A `Grove` is a row of trees with a label at every node, and nothing else:
neither slots nor links. It can be written down in two ways:

* as a text, the labels being names (`Grove.text`): names with blanks between
  siblings, and parentheses around what is below a node
  (`Grove.text_eq_intercalate`);
* as a list of all labels, each with the number of nodes above it
  (`Grove.levels`), a node before what is below it and this before what is
  behind it.

Both determine the grove. For the text this takes names that can be told from
what is written between them (`PlainName`). What is proved by induction is that
a grove can be told from whatever is written behind it: `Grove.text_append_inj`
and `Grove.levels_append_inj`. It follows that two groves have the same text
exactly if they have the same levels (`Grove.text_eq_iff`).
-/

set_option autoImplicit false

namespace ParseForest

/-- A row of trees: none, or a tree with the label of its root, the row of trees
below the root and the trees behind it. -/
inductive Grove (α : Type)
  | nil
  | cons (label : α) (below behind : Grove α)
deriving DecidableEq, Repr

/-- A name that can be told from what is written around it. -/
structure PlainName (name : String) : Prop where
  ne_empty : name ≠ ""
  no_blank : ' ' ∉ name.toList
  no_open : '(' ∉ name.toList
  no_close : ')' ∉ name.toList

instance (name : String) : Decidable (PlainName name) :=
  decidable_of_iff
    (name ≠ "" ∧ ' ' ∉ name.toList ∧ '(' ∉ name.toList ∧ ')' ∉ name.toList)
    ⟨fun ⟨hne, hblank, hopen, hclose⟩ => ⟨hne, hblank, hopen, hclose⟩,
      fun ⟨hne, hblank, hopen, hclose⟩ => ⟨hne, hblank, hopen, hclose⟩⟩

/-- The characters that are written between names. -/
def marks : List Char := [' ', '(', ')']

/-- No character of a plain name is one that is written between names. -/
theorem PlainName.unmarked {name : String} (h : PlainName name) : ∀ c ∈ name.toList, c ∉ marks := by
  intro c hc hmark
  simp only [marks, List.mem_cons, List.not_mem_nil, or_false] at hmark
  rcases hmark with rfl | rfl | rfl
  · exact h.no_blank hc
  · exact h.no_open hc
  · exact h.no_close hc

namespace Grove

variable {α β : Type}

/-- The row has no trees. -/
def isNil : Grove α → Bool
  | nil => true
  | cons _ _ _ => false

/-- The same trees with other labels. -/
def map (f : α → β) : Grove α → Grove β
  | nil => nil
  | cons label below behind => cons (f label) (below.map f) (behind.map f)

/-- All labels, those of what is below a node right behind its own. -/
def labels : Grove α → List α
  | nil => []
  | cons label below behind => label :: (below.labels ++ behind.labels)

/-- All labels in that order, each with the number of nodes above it; `depth`
are above the row. -/
def levels (depth : Nat) : Grove α → List (α × Nat)
  | nil => []
  | cons label below behind => (label, depth) :: (below.levels (depth + 1) ++ behind.levels depth)

/-- How many steps down or along it takes at most to come to a node. -/
def reach : Grove α → Nat
  | nil => 0
  | cons _ below behind => max below.reach behind.reach + 1

/-- The text of a row of trees; `first` if nothing of the row comes before
them. -/
def text (first : Bool) : Grove String → String
  | nil => ""
  | cons name below behind =>
    (if first then "" else " ") ++ name ++
      (if below.isNil then "" else "(" ++ below.text true ++ ")") ++ behind.text false

/-- The texts of the trees of a row, one by one. -/
def texts : Grove String → List String
  | nil => []
  | cons name below behind =>
    (name ++ if below.isNil then "" else "(" ++ " ".intercalate below.texts ++ ")") ::
      behind.texts

/-! ### Labels -/

/-- With other labels, the labels come in the same order. -/
theorem labels_map (f : α → β) (grove : Grove α) : (grove.map f).labels = grove.labels.map f := by
  induction grove with
  | nil => rfl
  | cons label below behind ihBelow ihBehind => simp [map, labels, ihBelow, ihBehind]

/-- Other labels are at the same levels. -/
theorem levels_map (f : α → β) (grove : Grove α) (depth : Nat) :
    (grove.map f).levels depth = (grove.levels depth).map fun entry => (f entry.1, entry.2) := by
  induction grove generalizing depth with
  | nil => rfl
  | cons label below behind ihBelow ihBehind => simp [map, levels, ihBelow, ihBehind]

/-- No way to a node goes over more nodes than there are. So as many links as
there are nodes are enough to write them all. -/
theorem reach_le (grove : Grove α) : grove.reach ≤ grove.labels.length := by
  induction grove with
  | nil => exact Nat.le_refl 0
  | cons label below behind ihBelow ihBehind =>
    simp only [reach, labels, List.length_cons, List.length_append]
    omega

/-! ### Texts -/

/-- There is one text for each tree, and none only where there is no tree. -/
theorem texts_eq_nil_iff (grove : Grove String) : grove.texts = [] ↔ grove.isNil = true := by
  cases grove <;> simp [texts, isNil]

/-- The text of a row is the texts of its trees with blanks between them, behind
another blank if something comes before the row. -/
theorem text_eq_intercalate (grove : Grove String) (first : Bool) :
    grove.text first =
      (if first || grove.isNil then "" else " ") ++ " ".intercalate grove.texts := by
  induction grove generalizing first with
  | nil => simp [text, texts, isNil]
  | cons name below behind ihBelow ihBehind =>
    rw [text, ihBelow true, ihBehind false]
    -- A blank comes behind the tree exactly if another tree does.
    cases behind with
    | nil => simp [texts, isNil, String.append_assoc]
    | cons name' below' behind' => simp [texts, isNil, String.append_assoc]

/-! ### Levels determine the trees -/

/-- What follows the nodes below a node starts further up than these: with the
next sibling, or with something that is further up than both. -/
theorem head?_levels_append_lt {depth : Nat} {rest : List (α × Nat)} (grove : Grove α)
    (hrest : ∀ entry ∈ rest.head?, entry.2 < depth) :
    ∀ entry ∈ (grove.levels depth ++ rest).head?, entry.2 < depth + 1 := by
  intro entry hentry
  cases grove with
  | nil => exact Nat.lt_succ_of_lt (hrest entry hentry)
  | cons label below behind =>
    cases hentry
    exact Nat.lt_succ_self depth

/-- A row can be told from entries behind it that start further up. The entries
behind are left open in the induction, since what follows the nodes below a node
is the rest of the row. -/
theorem levels_append_inj {grove grove' : Grove α} {depth : Nat} {rest rest' : List (α × Nat)}
    (hrest : ∀ entry ∈ rest.head?, entry.2 < depth)
    (hrest' : ∀ entry ∈ rest'.head?, entry.2 < depth)
    (h : grove.levels depth ++ rest = grove'.levels depth ++ rest') :
    grove = grove' ∧ rest = rest' := by
  induction grove generalizing grove' depth rest rest' with
  | nil =>
    cases grove' with
    | nil => exact ⟨rfl, h⟩
    | cons label' below' behind' =>
      -- What comes behind nothing would start as far down as the row.
      have hhead : rest.head? = some (label', depth) := congrArg List.head? h
      exact absurd (hrest _ hhead) (Nat.lt_irrefl depth)
  | cons label below behind ihBelow ihBehind =>
    cases grove' with
    | nil =>
      have hhead : rest'.head? = some (label, depth) := congrArg List.head? h.symm
      exact absurd (hrest' _ hhead) (Nat.lt_irrefl depth)
    | cons label' below' behind' =>
      simp only [levels, List.cons_append, List.append_assoc, List.cons.injEq, Prod.mk.injEq,
        and_true] at h
      obtain ⟨hlabel, h⟩ := h
      obtain ⟨hbelow, h⟩ := ihBelow (behind.head?_levels_append_lt hrest)
        (behind'.head?_levels_append_lt hrest') h
      obtain ⟨hbehind, h⟩ := ihBehind hrest hrest' h
      rw [hlabel, hbelow, hbehind]
      exact ⟨rfl, h⟩

/-- The levels determine the trees, with nothing behind them. -/
theorem levels_inj {grove grove' : Grove α} {depth : Nat}
    (h : grove.levels depth = grove'.levels depth) : grove = grove' := by
  have hnil : ∀ entry ∈ ([] : List (α × Nat)).head?, entry.2 < depth := by
    intro entry hentry
    cases hentry
  exact (levels_append_inj hnil hnil (congrArg (· ++ []) h)).1

/-! ### The text determines the trees -/

/-- Characters that are no marks can be told from what starts with a mark. So a
name can be read off a text, up to the first mark. -/
theorem unmarked_append_inj {name name' tail tail' : List Char}
    (hname : ∀ c ∈ name, c ∉ marks) (hname' : ∀ c ∈ name', c ∉ marks)
    (htail : ∀ c ∈ tail.head?, c ∈ marks) (htail' : ∀ c ∈ tail'.head?, c ∈ marks)
    (h : name ++ tail = name' ++ tail') : name = name' ∧ tail = tail' := by
  induction name generalizing name' with
  | nil =>
    cases name' with
    | nil => exact ⟨rfl, h⟩
    | cons c name' =>
      have hhead : tail.head? = some c := congrArg List.head? h
      -- The other name would start with a mark.
      exact absurd (htail c hhead) (hname' c List.mem_cons_self)
  | cons c name ih =>
    cases name' with
    | nil =>
      have hhead : tail'.head? = some c := congrArg List.head? h.symm
      exact absurd (htail' c hhead) (hname c List.mem_cons_self)
    | cons c' name' =>
      simp only [List.cons_append, List.cons.injEq] at h
      obtain ⟨hc, h⟩ := h
      obtain ⟨heq, h⟩ := ih (fun d hd => hname d (List.mem_cons_of_mem _ hd))
        (fun d hd => hname' d (List.mem_cons_of_mem _ hd)) h
      rw [hc, heq]
      exact ⟨rfl, h⟩

/-- The text of some trees ends here: nothing follows, or the end of the group
they are in. -/
def Closing (rest : List Char) : Prop := ∀ c ∈ rest.head?, c = ')'

/-- The part of a text that stands for what is below a node. -/
def group (below : Grove String) : List Char :=
  if below.isNil then [] else '(' :: ((below.text true).toList ++ [')'])

/-- A group with a tree in it, and what follows: an open parenthesis, the text,
and a closed one. -/
theorem group_cons_append (name : String) (below behind : Grove String) (tail : List Char) :
    (cons name below behind).group ++ tail =
      '(' :: (((cons name below behind).text true).toList ++ ')' :: tail) := by
  simp [group, isNil]

/-- The text of a tree is a separator, the name of the root and the group below
the root. -/
theorem toList_text_cons (first : Bool) (name : String) (below behind : Grove String) :
    ((cons name below behind).text first).toList =
      (if first then [] else [' ']) ++
        (name.toList ++ (below.group ++ (behind.text false).toList)) := by
  cases first <;> cases below <;> simp [text, group, isNil]

variable {name : String} {below behind grove grove' : Grove String} {first : Bool}
  {rest rest' : List Char}

/-- No end of a group is mistaken for the start of a tree. A tree starts with a
blank, or with a name, which is not empty and does not start with a
parenthesis. -/
theorem not_closing_text_append (hname : PlainName name) :
    ¬ Closing (((cons name below behind).text first).toList ++ rest) := by
  intro hclosing
  rw [toList_text_cons] at hclosing
  cases first with
  | false =>
    have hblank : ' ' = ')' := hclosing ' ' rfl
    exact absurd hblank (by decide)
  | true =>
    obtain ⟨c, chars, hchars⟩ := List.exists_cons_of_ne_nil
      (mt String.toList_eq_nil_iff.1 hname.ne_empty)
    have hc : c = ')' := by
      rw [hchars] at hclosing
      exact hclosing c rfl
    have hunmarked := hname.unmarked c (by rw [hchars]; exact List.mem_cons_self)
    rw [hc] at hunmarked
    exact absurd hunmarked (by decide)

/-- Behind a tree comes a separator or the end of the group. -/
theorem head?_text_append (behind : Grove String) (hrest : Closing rest) :
    ∀ c ∈ ((behind.text false).toList ++ rest).head?, c = ' ' ∨ c = ')' := by
  intro c hc
  cases behind with
  | nil => exact Or.inr (hrest c hc)
  | cons name below behind =>
    rw [toList_text_cons] at hc
    cases hc
    exact Or.inl rfl

/-- Behind a name comes a mark: the start of a group, a separator, or the end of
the group around. -/
theorem head?_group_append (below behind : Grove String) (hrest : Closing rest) :
    ∀ c ∈ (below.group ++ ((behind.text false).toList ++ rest)).head?, c ∈ marks := by
  intro c hc
  cases below with
  | nil =>
    rcases behind.head?_text_append hrest c hc with rfl | rfl
    · decide
    · decide
  | cons name below behind =>
    cases hc
    decide

/-- No group starts behind a tree. -/
theorem text_append_ne_open (behind : Grove String) (hrest : Closing rest) :
    ((behind.text false).toList ++ rest).head? ≠ some '(' := by
  intro hopen
  have hmark : '(' = ' ' ∨ '(' = ')' := behind.head?_text_append hrest '(' hopen
  exact absurd hmark (by decide)

/-- A group can be told from what follows, if what is in it can be told from
its end. An empty group is none, so what follows must not start like one. -/
theorem group_append_inj {below' : Grove String} {tail tail' : List Char}
    (htail : tail.head? ≠ some '(') (htail' : tail'.head? ≠ some '(')
    (hbelow : ∀ rest rest', Closing rest → Closing rest' →
      (below.text true).toList ++ rest = (below'.text true).toList ++ rest' →
        below = below' ∧ rest = rest')
    (h : below.group ++ tail = below'.group ++ tail') : below = below' ∧ tail = tail' := by
  -- What is in a group ends before the parenthesis.
  have hclosing : ∀ tail, Closing (')' :: tail) := by
    intro tail c hc
    cases hc
    rfl
  cases below with
  | nil =>
    cases below' with
    | nil => exact ⟨rfl, h⟩
    | cons name' below' behind' => exact absurd (congrArg List.head? h) htail
  | cons name below behind =>
    cases below' with
    | nil => exact absurd (congrArg List.head? h.symm) htail'
    | cons name' below' behind' =>
      rw [group_cons_append, group_cons_append] at h
      obtain ⟨heq, hrest⟩ := hbelow _ _ (hclosing tail) (hclosing tail') (List.cons.inj h).2
      exact ⟨heq, (List.cons.inj hrest).2⟩

/-- A row of trees with plain names can be told from the end of its group. The
induction is on the trees, and reads name, group and siblings off the text one
after another. -/
theorem text_append_inj (hplain : ∀ name ∈ grove.labels, PlainName name)
    (hplain' : ∀ name ∈ grove'.labels, PlainName name)
    (hrest : Closing rest) (hrest' : Closing rest')
    (h : (grove.text first).toList ++ rest = (grove'.text first).toList ++ rest') :
    grove = grove' ∧ rest = rest' := by
  induction grove generalizing grove' first rest rest' with
  | nil =>
    cases grove' with
    | nil => exact ⟨rfl, h⟩
    | cons name' below' behind' =>
      have hclosing : Closing ((nil.text first).toList ++ rest) := hrest
      rw [h] at hclosing
      exact absurd hclosing (not_closing_text_append (hplain' name' List.mem_cons_self))
  | cons name below behind ihBelow ihBehind =>
    cases grove' with
    | nil =>
      have hclosing : Closing ((nil.text first).toList ++ rest') := hrest'
      rw [← h] at hclosing
      exact absurd hclosing (not_closing_text_append (hplain name List.mem_cons_self))
    | cons name' below' behind' =>
      simp only [labels, List.forall_mem_cons, List.forall_mem_append] at hplain hplain'
      obtain ⟨hname, hbelow, hbehind⟩ := hplain
      obtain ⟨hname', hbelow', hbehind'⟩ := hplain'
      rw [toList_text_cons, toList_text_cons] at h
      simp only [List.append_assoc] at h
      -- The names end where the first mark is, and a group starts with a mark of its own.
      obtain ⟨heqName, h⟩ := unmarked_append_inj hname.unmarked hname'.unmarked
        (below.head?_group_append behind hrest) (below'.head?_group_append behind' hrest')
        (List.append_cancel_left h)
      obtain ⟨heqBelow, h⟩ := group_append_inj (behind.text_append_ne_open hrest)
        (behind'.text_append_ne_open hrest')
        (fun _ _ hclosing hclosing' => ihBelow hbelow hbelow' hclosing hclosing') h
      obtain ⟨heqBehind, h⟩ := ihBehind hbehind hbehind' hrest hrest' h
      rw [String.toList_injective heqName, heqBelow, heqBehind]
      exact ⟨rfl, h⟩

/-- Two rows of trees with plain names have the same text exactly if they have
the same names at the same depths. -/
theorem text_eq_iff {depth : Nat} (hplain : ∀ name ∈ grove.labels, PlainName name)
    (hplain' : ∀ name ∈ grove'.labels, PlainName name) :
    grove.text first = grove'.text first ↔ grove.levels depth = grove'.levels depth := by
  have hend : Closing [] := by
    intro c hc
    cases hc
  constructor
  · intro h
    have heq : (grove.text first).toList ++ [] = (grove'.text first).toList ++ [] := by rw [h]
    rw [(text_append_inj hplain hplain' hend hend heq).1]
  · intro h
    rw [levels_inj h]

/-- A blank in a name looks like a sibling. -/
example : (cons "a b" nil nil).text true = (cons "a" nil (cons "b" nil nil)).text true := by decide

end Grove

end ParseForest
