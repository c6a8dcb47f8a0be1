import BinaryLayout.Bytes.Binary

/-!
# Bit strings

A target is looked at as the string of its bits, each byte from its most significant bit on.
`toBits` and `ofBits` are binary numerals; `bits` is the string of a target, and `octets` cuts a
string into bytes again. `replaceBits` is what storing into a bit field does to the string.
-/

namespace BinaryLayout.Bytes

/-- The `width` lowest binary digits of a number, most significant first. -/
def toBits : Nat → Nat → List Bool
  | 0, _ => []
  | width + 1, n => toBits width (n / 2) ++ [n % 2 == 1]

/-- The number that binary digits denote, most significant first. -/
def ofBits (digits : List Bool) : Nat := digits.foldl (fun n digit => 2 * n + digit.toNat) 0

/-- The integer that binary digits denote in two's complement: the first digit counts negative. -/
def ofSignedBits (digits : List Bool) : Int :=
  if digits.head? = some true then (ofBits digits : Int) - patterns digits.length
  else ofBits digits

/-- The bits of a target. -/
def bits (target : List UInt8) : List Bool := target.flatMap fun byte => toBits 8 byte.toNat

/-- The bit string cut into pieces of eight bits; bits that do not fill a piece are dropped. -/
def octets : List Bool → List (List Bool)
  | a :: b :: c :: d :: e :: f :: g :: h :: rest => [a, b, c, d, e, f, g, h] :: octets rest
  | _ => []

/-- The bit string with the bits from `start` on replaced by as many other bits. -/
def replaceBits (string : List Bool) (start : Nat) (new : List Bool) : List Bool :=
  string.take start ++ new ++ string.drop (start + new.length)

/-! ### Known strings -/

example : bits [0x05, 0xF0] =
    [false, false, false, false, false, true, false, true,
      true, true, true, true, false, false, false, false] := by decide

example : ofSignedBits (toBits 4 13) = -3 ∧ ofBits (toBits 4 13) = 13 := by decide

end BinaryLayout.Bytes
