import BinaryLayout.Format.Basic

/-!
# Sizes in a string of bytes

The size behind a letter is read where it stands in the bytes of a format string: from a byte
position on, digit after digit, until a byte is no digit or the string ends. The size so far is
multiplied by ten and the next digit is added to it, both checked, and the first digit that leads
beyond the limit is the cause of a failure. Any bytes may stand in the string, and the position may
be past its end.
-/

namespace BinaryLayout.Format

/-- The byte is one of the digits `0` to `9`. -/
def isDigitByte (byte : UInt8) : Bool := 0x30 ≤ byte && byte ≤ 0x39

/-- The size so far, followed by one more digit. -/
def appendDigit? (size : Nat) (digit : UInt8) : Option Nat := do
  let tens ← Extent.mul? size 10
  Extent.add? tens (digit.toNat - 0x30)

/-- The size whose digits are those read so far and then the ones at the front of the bytes, and the
position after the last of them. The bytes start at `position`. -/
def sizeFrom (token : Char) :
    List UInt8 → (size position : Nat) → Except BuildError (Nat × Nat)
  | [], size, position => .ok (size, position)
  | byte :: bytes, size, position =>
    if isDigitByte byte then
      match appendDigit? size byte with
      | some size => sizeFrom token bytes size (position + 1)
      | none => .error (.badSize token Extent.limit)
    else .ok (size, position)

/-- The size at a byte position of a format string, if digits stand there, and the position after
them. -/
def sizeAt (token : Char) (format : List UInt8) (position : Nat) :
    Except BuildError (Option Nat × Nat) := do
  let (size, finish) ← sizeFrom token (format.drop position) 0 position
  return (if position < finish then some size else none, finish)

end BinaryLayout.Format
