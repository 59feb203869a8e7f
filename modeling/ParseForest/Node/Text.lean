import ParseForest.Node

/-!
# `ParseForest.Node.Text`: the text that a node matched

A node says where its text lies in bytes, and a text is a row of characters of
one to four bytes each. `Node.text?` cuts the bytes of a node out of a text and
answers with characters, so there is an answer only if both ends of the cut fall
between two characters, or at either end of the text.

`dropBytes` and `takeBytes` make the two cuts on a list of characters. `LiesAt`
says where one text lies in another, with no cut. `Node.text?_eq_some_iff` says
that a node matched what lies where it starts, and `LiesAt.append` joins texts
that lie one behind the other.
-/

set_option autoImplicit false

namespace ParseForest

/-- The bytes that a row of characters takes up in UTF-8. -/
def byteLength : List Char → Nat
  | [] => 0
  | c :: rest => c.utf8Size + byteLength rest

/-- What is left of a row of characters after its first `count` bytes, if these
are whole characters. -/
def dropBytes (count : Nat) : List Char → Option (List Char)
  | [] => if count = 0 then some [] else none
  | c :: rest =>
    if count = 0 then some (c :: rest)
    else if c.utf8Size ≤ count then dropBytes (count - c.utf8Size) rest
    else none

/-- The first `count` bytes of a row of characters, if these are whole
characters. -/
def takeBytes (count : Nat) : List Char → Option (List Char)
  | [] => if count = 0 then some [] else none
  | c :: rest =>
    if count = 0 then some []
    else if c.utf8Size ≤ count then (takeBytes (count - c.utf8Size) rest).map (c :: ·)
    else none

/-- The text a node matched in `source`. -/
def Node.text? (node : Node) (source : String) : Option String := do
  let _ ← ByteCount.add? node.offset node.length
  let behind ← dropBytes node.offset.toNat source.toList
  let matched ← takeBytes node.length.toNat behind
  return String.ofList matched

/-- A text lies in another one, with so many bytes before it. -/
def LiesAt (source : String) (start : Nat) (text : String) : Prop :=
  ∃ before after, source.toList = before ++ text.toList ++ after ∧ byteLength before = start

/-- No characters take up no bytes. -/
@[simp] theorem byteLength_nil : byteLength [] = 0 := rfl

/-- The first character takes up one to four bytes, and the others what they
take up without it. -/
@[simp] theorem byteLength_cons (c : Char) (chars : List Char) :
    byteLength (c :: chars) = c.utf8Size + byteLength chars := rfl

/-- Rows of characters put together take up as many bytes as they do apart: a
character is never split over two of them. -/
@[simp] theorem byteLength_append (chars chars' : List Char) :
    byteLength (chars ++ chars') = byteLength chars + byteLength chars' := by
  induction chars with
  | nil => simp
  | cons c chars ih => simp [ih, Nat.add_assoc]

/-- Only the empty row takes up no bytes, because a character takes up at least
one. This is where the two cuts stop. -/
theorem byteLength_eq_zero_iff {chars : List Char} : byteLength chars = 0 ↔ chars = [] := by
  cases chars with
  | nil => simp
  | cons c chars =>
    have := c.utf8Size_pos
    simp only [byteLength_cons, reduceCtorEq, iff_false]
    omega

/-- What is left after `count` bytes is what follows some row of exactly that
many bytes. There is at most one such row, so the cut has an answer only if it
falls between two characters. -/
theorem dropBytes_eq_some_iff {count : Nat} {chars rest : List Char} :
    dropBytes count chars = some rest ↔
      ∃ taken, chars = taken ++ rest ∧ byteLength taken = count := by
  induction chars generalizing count with
  | nil =>
    simp only [dropBytes, List.nil_eq, List.append_eq_nil_iff]
    constructor
    · split <;> simp_all
    · rintro ⟨taken, ⟨rfl, rfl⟩, rfl⟩
      simp
  | cons c chars ih =>
    have hc := c.utf8Size_pos
    simp only [dropBytes]
    split
    · subst count
      constructor
      · rintro ⟨⟩
        exact ⟨[], rfl, rfl⟩
      · rintro ⟨taken, heq, htaken⟩
        -- Nothing is cut off, because what takes up no bytes is empty.
        rw [byteLength_eq_zero_iff.1 htaken, List.nil_append] at heq
        exact congrArg some heq
    · rename_i hpos
      split
      · -- The first character fits, and the rest of the cut is behind it.
        rw [ih]
        constructor
        · rintro ⟨taken, rfl, htaken⟩
          exact ⟨c :: taken, rfl, by rw [byteLength_cons]; omega⟩
        · rintro ⟨_ | ⟨d, taken⟩, heq, htaken⟩
          · exact absurd htaken.symm hpos
          · obtain ⟨rfl, rfl⟩ := List.cons.inj heq
            rw [byteLength_cons] at htaken
            exact ⟨taken, rfl, by omega⟩
      · -- The cut is in the middle of the first character.
        simp only [reduceCtorEq, false_iff]
        rintro ⟨_ | ⟨d, taken⟩, heq, htaken⟩
        · exact hpos htaken.symm
        · obtain ⟨rfl, rfl⟩ := List.cons.inj heq
          rw [byteLength_cons] at htaken
          omega

/-- The first `count` bytes are a row of exactly that many bytes with which the
characters begin. What follows the row is not asked for, and may be empty. -/
theorem takeBytes_eq_some_iff {count : Nat} {chars taken : List Char} :
    takeBytes count chars = some taken ↔
      byteLength taken = count ∧ ∃ rest, chars = taken ++ rest := by
  induction chars generalizing count taken with
  | nil =>
    simp only [takeBytes, List.nil_eq, List.append_eq_nil_iff]
    constructor
    · split <;> simp_all [eq_comm]
    · rintro ⟨rfl, rest, rfl, rfl⟩
      simp
  | cons c chars ih =>
    have hc := c.utf8Size_pos
    simp only [takeBytes]
    split
    · subst count
      constructor
      · rintro ⟨⟩
        exact ⟨rfl, _, rfl⟩
      · rintro ⟨htaken, _⟩
        -- Nothing is taken, because what takes up no bytes is empty.
        rw [byteLength_eq_zero_iff.1 htaken]
    · rename_i hpos
      split
      · -- The first character fits, and more may be taken from behind it.
        rw [Option.map_eq_some_iff]
        constructor
        · rintro ⟨front, hfront, rfl⟩
          obtain ⟨hlength, rest, rfl⟩ := ih.1 hfront
          exact ⟨by rw [byteLength_cons]; omega, rest, rfl⟩
        · rintro ⟨hlength, rest, heq⟩
          cases taken with
          | nil => exact absurd hlength.symm hpos
          | cons d taken =>
            obtain ⟨rfl, rfl⟩ := List.cons.inj heq
            rw [byteLength_cons] at hlength
            exact ⟨taken, ih.2 ⟨by omega, rest, rfl⟩, rfl⟩
      · -- The first character is too long, and nothing shorter starts with it.
        simp only [reduceCtorEq, false_iff]
        rintro ⟨hlength, rest, heq⟩
        cases taken with
        | nil => exact hpos hlength.symm
        | cons d taken =>
          obtain ⟨rfl, rfl⟩ := List.cons.inj heq
          rw [byteLength_cons] at hlength
          omega

/-! ### Texts within texts -/

/-- A text that starts where another one ends in the source continues it: the
two together lie where the first one does. -/
theorem LiesAt.append {source text text' : String} {start : Nat}
    (h : LiesAt source start text)
    (h' : LiesAt source (start + byteLength text.toList) text') :
    LiesAt source start (text ++ text') := by
  obtain ⟨before, after, hsource, hbefore⟩ := h
  obtain ⟨before', after', hsource', hbefore'⟩ := h'
  -- Dropping the bytes before the second text leaves both what is behind the first text and what
  -- the second one starts.
  have hbehind : dropBytes (start + byteLength text.toList) source.toList = some after :=
    dropBytes_eq_some_iff.2 ⟨_, hsource, by rw [byteLength_append, hbefore]⟩
  have hbehind' : dropBytes (start + byteLength text.toList) source.toList =
      some (text'.toList ++ after') :=
    dropBytes_eq_some_iff.2 ⟨before', by rw [hsource', List.append_assoc], hbefore'⟩
  obtain rfl : after = text'.toList ++ after' := Option.some.inj (hbehind.symm.trans hbehind')
  refine ⟨before, after', ?_, hbefore⟩
  rw [hsource, String.toList_append]
  simp only [List.append_assoc]

/-- A node matched a text exactly if the text lies where the node starts, is as
long as the node, and ends at a position that 64 bits can name. Lengths are in
bytes, so a node that ends in the middle of a character, or behind the end of
the source, matched no text. -/
theorem Node.text?_eq_some_iff {node : Node} {source text : String} :
    node.text? source = some text ↔
      node.offset.toNat + node.length.toNat < UInt64.size ∧
        byteLength text.toList = node.length.toNat ∧ LiesAt source node.offset.toNat text := by
  have hstop : (∃ stop, ByteCount.add? node.offset node.length = some stop) ↔
      node.offset.toNat + node.length.toNat < UInt64.size := by
    simp [ByteCount.add?]
  rw [Node.text?, ← hstop]
  simp only [Option.bind_eq_bind, Option.bind_eq_some_iff, Option.pure_def, Option.some.injEq]
  constructor
  · rintro ⟨stop, hadd, behind, hbehind, matched, hmatched, rfl⟩
    obtain ⟨before, hsource, hbefore⟩ := dropBytes_eq_some_iff.1 hbehind
    obtain ⟨hlength, after, rfl⟩ := takeBytes_eq_some_iff.1 hmatched
    rw [String.toList_ofList]
    refine ⟨⟨stop, hadd⟩, hlength, before, after, ?_, hbefore⟩
    rw [hsource, String.toList_ofList, List.append_assoc]
  · rintro ⟨⟨stop, hadd⟩, hlength, before, after, hsource, hbefore⟩
    rw [List.append_assoc] at hsource
    exact ⟨stop, hadd, _, dropBytes_eq_some_iff.2 ⟨before, hsource, hbefore⟩, _,
      takeBytes_eq_some_iff.2 ⟨hlength, after, rfl⟩, String.ofList_toList⟩

end ParseForest
