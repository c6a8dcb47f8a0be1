import BinaryLayout.Extent
import BinaryLayout.Text.Digits

/-!
# Number literals

A JSON number is kept as it was written: a sign, a whole part, the digits of a fraction, and an
exponent. Two views are taken of it.

* `Number.extent?`: the literal as an extent. Only a literal without sign, fraction and exponent
  has one, and only within the limit.
* `Number.isFinite`: whether the literal lies in the range of double-precision numbers. Its
  leading digits, as many as an extent can hold, form the significand; the significand and the
  power of ten are rounded to 53 bits each, and the literal is finite unless their product rounds
  past the largest double.
-/

namespace BinaryLayout.Json

/-- A number literal, part by part. -/
structure Number where
  /-- The literal starts with a minus sign. -/
  negative : Bool
  /-- The part before the point. -/
  whole : Nat
  /-- The digits after the point; without a point there are none. -/
  fraction : List Char
  /-- The exponent of ten, if one is written. -/
  exponent : Option Int
  deriving DecidableEq, Repr

namespace Number

/-- The literal of a natural number. -/
def ofNat (n : Nat) : Number := ⟨false, n, [], none⟩

/-- The literal of an integer. -/
def ofInt (i : Int) : Number := ⟨decide (i < 0), i.natAbs, [], none⟩

/-- Neither a fraction nor an exponent is written. -/
def isPlain (n : Number) : Bool := n.fraction.isEmpty && n.exponent.isNone

/-- The extent that a plain literal without a sign denotes. -/
def extent? (n : Number) : Option Nat :=
  if !n.negative && n.isPlain && decide (n.whole ≤ Extent.limit) then some n.whole else none

/-- The integer that a plain literal denotes. -/
def int? (n : Number) : Option Int :=
  if n.isPlain then some (if n.negative then -(n.whole : Int) else n.whole) else none

/-! ### The range of double-precision numbers -/

/-- A number without its last digits, so many that the rest is an extent, and their count added
to `e`. -/
def leadingDigits (n : Nat) (e : Int) : Nat × Int :=
  if Extent.limit < n then leadingDigits (n / 10) (e + 1) else (n, e)
termination_by n
decreasing_by simp only [Extent.limit] at *; omega

/-- Digits of a fraction joined to the significand `m` of `m * 10 ^ e`, until the significand
would be no extent any more. -/
def joinDigits : List Char → Nat → Int → Nat × Int
  | [], m, e => (m, e)
  | d :: ds, m, e =>
    if 10 * m + Text.digitValue d ≤ Extent.limit then
      joinDigits ds (10 * m + Text.digitValue d) (e - 1)
    else (m, e)

/-- The significand and the power of ten of a literal. -/
def scientific (n : Number) : Nat × Int :=
  let (m, e) := leadingDigits n.whole 0
  let (m, e) := joinDigits n.fraction m e
  (m, e + n.exponent.getD 0)

/-- A natural number rounded to its 53 most significant bits; a tie goes to the even one. -/
def roundTo53 (n : Nat) : Nat :=
  if n.log2 < 53 then n
  else
    let unit := 1 <<< (n.log2 - 52)
    let q := n / unit
    if unit < 2 * (n % unit) ∨ (unit = 2 * (n % unit) ∧ q % 2 = 1) then (q + 1) * unit
    else q * unit

/-- The literal lies in the range of double-precision numbers. -/
def isFinite (n : Number) : Bool :=
  let (m, e) := n.scientific
  m == 0 || decide (e < 0) ||
    (decide (e ≤ 308) &&
      decide (roundTo53 m * roundTo53 (Nat.pow 10 e.toNat) < 1 <<< 1024 - 1 <<< 970))

end Number

end BinaryLayout.Json
