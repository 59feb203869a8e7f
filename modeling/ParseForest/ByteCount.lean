/-!
# `ParseForest.ByteCount`: positions and lengths in a text

Positions and lengths count the bytes of a text in UTF-8 and take up 64 bits.
Where two of them are added the sum may need a 65th bit. `ByteCount.add?` then
has no answer, and it never wraps around: `add?_eq_some_iff` and
`add?_eq_none_iff` say which of the two happens, in terms of natural numbers.
-/

set_option autoImplicit false

namespace ParseForest

/-- A number of bytes, at most `2 ^ 64 - 1`. -/
abbrev ByteCount := UInt64

namespace ByteCount

/-- The sum of two counts, if 64 bits hold it. -/
def add? (a b : ByteCount) : Option ByteCount :=
  if a.toNat + b.toNat < UInt64.size then some (a + b) else none

/-- The sum exists exactly when it is the sum of the two numbers. So a proof
about sums that exist can leave 64 bits behind and add natural numbers. -/
theorem add?_eq_some_iff {a b c : ByteCount} :
    add? a b = some c ↔ c.toNat = a.toNat + b.toNat := by
  have hc := UInt64.toNat_lt_size c
  simp only [add?, UInt64.size] at *
  split
  · rename_i h
    rw [Option.some.injEq, ← UInt64.toNat_inj, UInt64.toNat_add, Nat.mod_eq_of_lt h]
    exact eq_comm
  · simp only [reduceCtorEq, false_iff]
    omega

/-- The sum is missing exactly when 64 bits do not hold it. No sum is ever too
small for this, and none wraps around. -/
theorem add?_eq_none_iff {a b : ByteCount} :
    add? a b = none ↔ UInt64.size ≤ a.toNat + b.toNat := by
  simp only [add?]
  split <;> simp only [reduceCtorEq, true_iff, false_iff] <;> omega

end ByteCount

end ParseForest
