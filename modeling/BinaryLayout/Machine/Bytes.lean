import BinaryLayout.Bytes.BitField
import BinaryLayout.Machine.Basic

/-!
# The codecs of a machine

Integers and bit fields are read and stored with operations on words. A bit field is moved down to
the lowest bits of the number of its span and masked there; to store it, its bits in that number are
cleared with a mask that is moved up, and the new ones are put in. A span has up to nine bytes, so
that its number is one of 128 bits.

No operation looks whether it may trap. What keeps it from that are the checks before it, of the
number of bytes or bits and of the length of the target. The bytes of a word are swapped without
such a check, by those who know how many there are.
-/

namespace BinaryLayout.Machine

variable {ε : Type}

/-- The word of 64 bits whose `bits` lowest ones are set, all of them if there are not so many. -/
def mask (bits : Nat) : Machine ε Nat :=
  if 64 ≤ bits then return Bytes.patterns 64 - 1
  else do
    let next ← shiftLeft 64 1 bits
    sub next 1

/-- The number of bytes that `width` bits touch when they start `bitOffset` bits into the first. -/
def span (width bitOffset : Nat) : Machine ε Nat := do
  let bits ← add width bitOffset
  divCeil bits 8

/-- The number of bits in the bytes of a span after the field. -/
def fieldShift (width bitOffset span : Nat) : Machine ε Nat := do
  let bits ← mul span 8
  let behind ← sub bits bitOffset
  sub behind width

/-- The span of a field of `width` bits at `bitOffset`, which has to be in `available` bytes. -/
def checkField (width bitOffset available : Nat) : Machine AccessError Nat :=
  if width < 1 ∨ Bytes.maxFieldWidth < width then throw (.badWidth width)
  else if 7 < bitOffset then throw (.badBitOffset bitOffset)
  else do
    let span ← span width bitOffset
    if available < span then throw (.tooShort span available) else return span

/-! ### Integers -/

/-- The unsigned integer in the first `size` bytes. -/
def readWord (size : Nat) (order : ByteOrder) (target : List UInt8) : Machine AccessError Nat := do
  ofExcept (Bytes.checkWord size target.length)
  readNumber 8 target size order

/-- The target with the `size` lowest bytes of a word at its front. -/
def writeWord (word size : Nat) (order : ByteOrder) (target : List UInt8) :
    Machine StoreError (List UInt8) := do
  toStore (ofExcept (Bytes.checkWord size target.length))
  let bits ← mul size 8
  let mask ← mask bits
  writeNumber 8 target (word &&& mask) size order

/-- The `bits` lowest bits of a word as a signed integer: the highest of them becomes the sign when
they are moved up, and stays it when they are moved down again. -/
def signExtend (word bits : Nat) : Machine ε Int := do
  let shift ← sub 64 bits
  let raised ← shiftLeft 64 word shift
  shiftRightSigned (toSigned raised) shift

/-- The `size` lowest bytes of a word in reverse order: all its bytes are turned around, and those
that were the lowest are moved down again. -/
def swapBytes (word size : Nat) : Machine ε Nat := do
  let bits ← mul size 8
  let shift ← sub 64 bits
  shiftRight 64 (reverseBytes word) shift

/-! ### Bit fields -/

/-- The `width` bits that start `bitOffset` bits into the target. -/
def readField (width bitOffset : Nat) (target : List UInt8) : Machine AccessError Nat := do
  let span ← checkField width bitOffset target.length
  let covered ← readNumber 16 target span .big
  let shift ← fieldShift width bitOffset span
  let lowered ← shiftRight 128 covered shift
  let mask ← mask width
  return Bytes.lowBits lowered 64 &&& mask

/-- The target with the `width` lowest bits of a word stored `bitOffset` bits into it. -/
def writeField (word width bitOffset : Nat) (target : List UInt8) :
    Machine StoreError (List UInt8) := do
  let span ← toStore (checkField width bitOffset target.length)
  let shift ← fieldShift width bitOffset span
  let mask ← mask width
  let field ← shiftLeft 128 mask shift
  let covered ← readNumber 16 target span .big
  let raised ← shiftLeft 128 (word &&& mask) shift
  let merged := (covered &&& complement 128 field) ||| raised
  writeNumber 16 target merged span .big

end BinaryLayout.Machine
