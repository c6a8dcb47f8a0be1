/-!
# Extents

Sizes, counts and positions are natural numbers. Those that a layout or a target can have are
**addressable**: at most `limit = 2 ^ 64 - 1`. Arithmetic on them is exact on the natural numbers
and then brought back in one of two ways:

* **saturating**, `satAdd` and `satMul`: a result beyond the limit becomes the limit;
* **checked**, `add?` and `mul?`: a result beyond the limit is refused.

`bytesFor bits` is the number of bytes that hold `bits` bits.
-/

namespace BinaryLayout.Extent

/-- The largest addressable extent. -/
def limit : Nat := 0xFFFFFFFFFFFFFFFF

/-- The sum, stopping at the limit. -/
def satAdd (a b : Nat) : Nat := min (a + b) limit

/-- The product, stopping at the limit. -/
def satMul (a b : Nat) : Nat := min (a * b) limit

/-- The sum, if it is addressable. -/
def add? (a b : Nat) : Option Nat := if a + b ≤ limit then some (a + b) else none

/-- The product, if it is addressable. -/
def mul? (a b : Nat) : Option Nat := if a * b ≤ limit then some (a * b) else none

/-- The number of bytes that hold `bits` bits: an eighth, rounded up. -/
def bytesFor (bits : Nat) : Nat := (bits + 7) / 8

/-! ### Laws -/

theorem satAdd_le_limit (a b : Nat) : satAdd a b ≤ limit := Nat.min_le_right _ _

/-- Within the limit the saturating sum is the sum. -/
theorem satAdd_of_le {a b : Nat} (h : a + b ≤ limit) : satAdd a b = a + b := Nat.min_eq_left h

/-- Within the limit the saturating product is the product. -/
theorem satMul_of_le {a b : Nat} (h : a * b ≤ limit) : satMul a b = a * b := Nat.min_eq_left h

/-- A checked sum is the sum, and it is given exactly when it is addressable. -/
theorem add?_eq_some_iff {a b n : Nat} : add? a b = some n ↔ a + b = n ∧ n ≤ limit := by
  unfold add?
  split <;> simp <;> omega

theorem add?_eq_none_iff {a b : Nat} : add? a b = none ↔ limit < a + b := by
  unfold add?
  split <;> simp <;> omega

/-- A checked sum with the limit in place of what is refused saturates. -/
theorem getD_add? (a b : Nat) : (add? a b).getD limit = satAdd a b := by
  rw [add?, satAdd]
  split
  · exact (Nat.min_eq_left ‹_›).symm
  · exact (Nat.min_eq_right (Nat.le_of_not_le ‹_›)).symm

/-- A checked product is the product, and it is given exactly when it is addressable. -/
theorem mul?_eq_some_iff {a b n : Nat} : mul? a b = some n ↔ a * b = n ∧ n ≤ limit := by
  unfold mul?
  split
  · simp only [Option.some.injEq, iff_self_and]; rintro rfl; assumption
  · simp only [reduceCtorEq, false_iff, not_and]; rintro rfl; assumption

theorem mul?_eq_none_iff {a b : Nat} : mul? a b = none ↔ limit < a * b := by
  unfold mul?
  split
  · simp only [reduceCtorEq, false_iff, Nat.not_lt]; assumption
  · simp only [true_iff]; exact Nat.lt_of_not_le ‹_›

/-- The bytes that hold `bits` bits are enough, and one byte less is not. -/
theorem bytesFor_le_iff {bits n : Nat} : bytesFor bits ≤ n ↔ bits ≤ 8 * n := by
  unfold bytesFor; omega

end BinaryLayout.Extent
