import BinaryLayout.ByteOrder
import BinaryLayout.Extent

/-!
# Fields

A **field** is an atomic piece of a layout: an integer of a number of bytes, a number of bits
that start at a bit of a byte, or a run of raw bytes. Any numbers may stand in a field; which of
them can be read and written is for those who make fields and use them to check.

Its signature names its kind and its numbers in decimal, and is what tells two fields apart in
messages and in tables.
-/

namespace BinaryLayout

/-- Whether an integer has a sign. -/
inductive Signedness where
  | signed
  | unsigned
  deriving DecidableEq, Repr

/-- An atomic piece of a layout. -/
inductive Field where
  /-- An integer of `size` bytes. -/
  | integer (signedness : Signedness) (size : Nat) (order : ByteOrder)
  /-- So many bits, from bit `offset` of a byte on. -/
  | bits (width offset : Nat)
  /-- A run of `size` bytes. -/
  | raw (size : Nat)
  deriving DecidableEq, Repr

namespace Field

instance : Inhabited Field := ⟨.raw 1⟩

/-- The name of the kind of the field. -/
def kind : Field → String
  | .integer .signed _ _ => "Int"
  | .integer .unsigned _ _ => "UInt"
  | .bits _ _ => "Bit"
  | .raw _ => "Raw"

/-- The kind of the field followed by its numbers. -/
def signature : Field → String
  | .integer .signed size order => "Int" ++ toString size ++ order.tag.toString
  | .integer .unsigned size order => "UInt" ++ toString size ++ order.tag.toString
  | .bits width offset => "Bit" ++ toString width ++ "_" ++ toString offset
  | .raw size => "Raw" ++ toString size

/-- The number of bits of the field, without a limit. -/
def exactBitSize : Field → Nat
  | .integer _ size _ => 8 * size
  | .bits width _ => width
  | .raw size => 8 * size

/-- The number of bits of the field, the limit if there are more. -/
def bitSize : Field → Nat
  | .integer _ size _ => Extent.satMul size 8
  | .bits width _ => width
  | .raw size => Extent.satMul size 8

/-- The number of bytes that the field touches. -/
def byteSize : Field → Nat
  | .integer _ size _ => size
  | .bits width offset => Extent.bytesFor (Extent.satAdd width offset)
  | .raw size => size

/-- The bit of its first byte at which the field starts. -/
def bitOffset : Field → Nat
  | .bits _ offset => offset
  | _ => 0

/-- The field may start at any bit, not only at the first bit of a byte. -/
def isBitPacked : Field → Bool
  | .bits _ _ => true
  | _ => false

end Field

end BinaryLayout
