import BinaryLayout.ByteOrder
import BinaryLayout.Bytes.Binary
import BinaryLayout.Bytes.Error

/-!
# Integers in bytes

A list of bytes, most significant first, is a number in base 256: `toNat` reads it, and
`ofNat size n` writes the `size` lowest digits of `n`.

`readWord` and `writeWord` take such a number from the front of a target and put it there, in
either byte order. An integer has one to eight bytes.
-/

namespace BinaryLayout.Bytes

/-- The number whose digits are those of `n` and then the bytes. -/
def toNatFrom (n : Nat) : List UInt8 → Nat
  | [] => n
  | b :: bytes => toNatFrom (256 * n + b.toNat) bytes

/-- The number that bytes denote, most significant first. -/
def toNat (bytes : List UInt8) : Nat := toNatFrom 0 bytes

/-- The `size` lowest bytes of a number, most significant first. -/
def ofNat : Nat → Nat → List UInt8
  | 0, _ => []
  | size + 1, n => ofNat size (n / 256) ++ [UInt8.ofNat n]

/-- The most bytes of an integer. -/
def maxWordSize : Nat := 8

/-- An integer of `size` bytes can be taken from `available` bytes. -/
def checkWord (size available : Nat) : Except AccessError Unit :=
  if size < 1 ∨ maxWordSize < size then .error (.badWidth size)
  else if available < size then .error (.tooShort size available)
  else .ok ()

/-- The unsigned integer in the first `size` bytes. -/
def readWord (size : Nat) (order : ByteOrder) (target : List UInt8) : Except AccessError Nat := do
  checkWord size target.length
  return toNat (order.arrange (target.take size))

/-- The target with the `size` lowest bytes of `value` at its front. -/
def writeWord (value size : Nat) (order : ByteOrder) (target : List UInt8) :
    Except StoreError (List UInt8) := do
  (checkWord size target.length).mapError AccessError.toStoreError
  return order.arrange (ofNat size value) ++ target.drop size

/-- The `size` lowest bytes of a number in reverse order. -/
def swapBytes (value size : Nat) : Nat := toNat (ofNat size value).reverse

end BinaryLayout.Bytes
