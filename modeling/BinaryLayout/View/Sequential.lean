import BinaryLayout.Bytes.Bits
import BinaryLayout.View.Read

/-!
# Reading from left to right

A layout can be read from a bit string in one pass: every field takes its bits from the front, and
the members of a composite are read one after the other from what is left. Nothing kept in the
nodes of the layout is used, neither offsets nor sizes.
-/

namespace BinaryLayout

/-- The bits of an integer, its bytes put in order from the most significant one on. -/
def ByteOrder.arrangeBits (order : ByteOrder) (string : List Bool) : List Bool :=
  match order with
  | .big => string
  | .little => (Bytes.octets string).reverse.flatten

/-- The value of a field that consists of the given bits. -/
def Field.ofBits : Field → List Bool → Value
  | .integer .signed _ order, string => .int (Bytes.ofSignedBits (order.arrangeBits string))
  | .integer .unsigned _ order, string => .uint (Bytes.ofBits (order.arrangeBits string))
  | .bits width _, string =>
    if width = 1 then .bool (string == [true]) else .uint (Bytes.ofBits string)
  | .raw _, string =>
    .bytes ((Bytes.octets string).map fun octet => UInt8.ofNat (Bytes.ofBits octet))

namespace Layout

/-- The results of `count` readings one after the other. -/
def decodeTimes (decode : List Bool → Option (Value × List Bool)) :
    Nat → List Bool → Option (List Value × List Bool)
  | 0, string => some ([], string)
  | count + 1, string =>
    match decode string with
    | none => none
    | some (value, string) =>
      (decodeTimes decode count string).map fun (values, string) => (value :: values, string)

mutual

/-- The value of a layout at the front of a bit string, and the bits after it. -/
def decode : Layout → List Bool → Option (Value × List Bool)
  | .atom _ field, string =>
    if field.exactBitSize ≤ string.length then
      some (field.ofBits (string.take field.exactBitSize), string.drop field.exactBitSize)
    else none
  | .array _ element count _, string =>
    (decodeTimes element.decode count string).map fun (values, string) => (.list values, string)
  | .group _ labels members _ _, string =>
    (decodeMembers members string).map fun (values, string) => (assemble labels values, string)

/-- The values of layouts one after the other at the front of a bit string, and the bits after
them. -/
def decodeMembers : List Layout → List Bool → Option (List Value × List Bool)
  | [], string => some ([], string)
  | member :: members, string =>
    match member.decode string with
    | none => none
    | some (value, string) =>
      (decodeMembers members string).map fun (values, string) => (value :: values, string)

end

end Layout

end BinaryLayout
