import BinaryLayout.Bytes.Word

/-!
# Bit fields

Bits are counted from the most significant bit of the first byte. A field of one to sixty-four
bits may start at any bit of the first byte and reach into any number of bytes after it: its
**span** is the bytes it touches, nine at most.

The bytes of the span are one number, and the field is its part above the `fieldShift` lowest
bits. Reading divides the rest off; writing replaces that part and keeps what is above and below.
-/

namespace BinaryLayout.Bytes

/-- The most bits of a field. -/
def maxFieldWidth : Nat := 64

/-- The number of bytes that `width` bits touch when they start `bitOffset` bits into the first. -/
def span (width bitOffset : Nat) : Nat := Extent.bytesFor (width + bitOffset)

/-- The number of bits of the span after the field. -/
def fieldShift (width bitOffset : Nat) : Nat := 8 * span width bitOffset - bitOffset - width

/-- A field of `width` bits at `bitOffset` can be taken from `available` bytes. -/
def checkField (width bitOffset available : Nat) : Except AccessError Unit :=
  if width < 1 ∨ maxFieldWidth < width then .error (.badWidth width)
  else if 7 < bitOffset then .error (.badBitOffset bitOffset)
  else if available < span width bitOffset then
    .error (.tooShort (span width bitOffset) available)
  else .ok ()

/-- The `width` bits that start `bitOffset` bits into the target. -/
def readField (width bitOffset : Nat) (target : List UInt8) : Except AccessError Nat := do
  checkField width bitOffset target.length
  return extract (toNat (target.take (span width bitOffset))) (fieldShift width bitOffset) width

/-- The target with the `width` lowest bits of `value` stored `bitOffset` bits into it. -/
def writeField (value width bitOffset : Nat) (target : List UInt8) :
    Except StoreError (List UInt8) := do
  (checkField width bitOffset target.length).mapError AccessError.toStoreError
  let covered := toNat (target.take (span width bitOffset))
  let merged := splice covered (fieldShift width bitOffset) width value
  return ofNat (span width bitOffset) merged ++ target.drop (span width bitOffset)

end BinaryLayout.Bytes
