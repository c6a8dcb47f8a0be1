import BinaryLayout.Dialect.Basic
import BinaryLayout.Field

/-!
# Letters of format strings

Each field of a format string is introduced by a letter:

| letter | field |
|---|---|
| b, B | an integer of one byte |
| h, H | a short integer |
| l, L | a long integer |
| j, J | an integer of a script |
| T | a size |
| i, I | an integer, its bytes given by digits |
| c | raw bytes, their number given by digits |
| r | a single bit |
| R | bits, their number given by digits |

The capital letters introduce unsigned integers, and so does T. A `Shape` is what a letter fixes of
its field; a `Letter` adds the size that holds when no digits follow and whether digits may follow.
-/

namespace BinaryLayout

/-- The kind of a field, before it has a size and a place. -/
inductive Shape where
  | integer (signedness : Signedness)
  | raw
  | bits
  deriving DecidableEq, Repr

namespace Shape

/-- The largest size of a field of this shape: eight bytes for an integer, 64 bits for a bit
field, and as many bytes for a raw field as have addressable bits. -/
def largest : Shape → Nat
  | .integer _ => 8
  | .raw => Extent.limit / 8
  | .bits => 64

/-- The letter that takes the size of such a field from digits. -/
def letter : Shape → Char
  | .integer .signed => 'i'
  | .integer .unsigned => 'I'
  | .raw => 'c'
  | .bits => 'R'

/-- The field of this shape and size where `order` is in force, `bit` bits from the start. -/
def field (shape : Shape) (size : Nat) (order : ByteOrder) (bit : Nat) : Field :=
  match shape with
  | .integer signedness => .integer signedness size order
  | .raw => .raw size
  | .bits => .bits size (bit % 8)

end Shape

/-- What a letter of a format string introduces. -/
structure Letter where
  /-- The kind of the field. -/
  shape : Shape
  /-- The size of the field when no digits follow. -/
  size : Nat
  /-- Digits may follow. -/
  sized : Bool
  deriving DecidableEq, Repr

/-- The meaning of a letter in a dialect. -/
def Dialect.letter? (dialect : Dialect) (c : Char) : Option Letter :=
  match c with
  | 'b' => some ⟨.integer .signed, 1, false⟩
  | 'B' => some ⟨.integer .unsigned, 1, false⟩
  | 'h' => some ⟨.integer .signed, dialect.short, false⟩
  | 'H' => some ⟨.integer .unsigned, dialect.short, false⟩
  | 'l' => some ⟨.integer .signed, dialect.long, false⟩
  | 'L' => some ⟨.integer .unsigned, dialect.long, false⟩
  | 'j' => some ⟨.integer .signed, dialect.script, false⟩
  | 'J' => some ⟨.integer .unsigned, dialect.script, false⟩
  | 'T' => some ⟨.integer .unsigned, dialect.size, false⟩
  | 'i' => some ⟨.integer .signed, dialect.int, true⟩
  | 'I' => some ⟨.integer .unsigned, dialect.int, true⟩
  | 'c' => some ⟨.raw, 1, true⟩
  | 'r' => some ⟨.bits, 1, false⟩
  | 'R' => some ⟨.bits, 1, true⟩
  | _ => none

end BinaryLayout
