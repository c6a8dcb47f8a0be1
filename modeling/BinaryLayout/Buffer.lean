import BinaryLayout.View.Write

/-!
# Buffers

A **buffer** is a target that is owned: bytes of a fixed number. Ranges of it are read and written
as raw bytes, integers and bit fields at a byte offset, and layouts are read from it. A range that
leaves the buffer is refused before anything else is looked at.
-/

namespace BinaryLayout

/-- Bytes of a fixed number. -/
structure Buffer where
  bytes : List UInt8
  deriving DecidableEq, Repr

namespace Buffer

/-- The number of bytes. -/
def length (buffer : Buffer) : Nat := buffer.bytes.length

/-- There are no bytes. -/
def isEmpty (buffer : Buffer) : Bool := buffer.bytes.isEmpty

/-- A buffer of `length` zeros. -/
def zeros (length : Nat) : Buffer := ⟨List.replicate length 0⟩

/-- A buffer of `length` bytes that starts with `contents` and goes on with zeros. -/
def withContents (length : Nat) (contents : List UInt8) : Except StoreError Buffer :=
  if length < contents.length then .error (.tooShort contents.length length)
  else .ok ⟨contents ++ List.replicate (length - contents.length) 0⟩

/-- The text of a buffer. -/
def text (buffer : Buffer) : String := "Buffer\x7b" ++ toString buffer.length ++ "\x7d"

/-- A byte in two upper-case hexadecimal digits. -/
def hexByte (byte : UInt8) : String :=
  String.ofList
    [(Nat.digitChar (byte.toNat / 16)).toUpper, (Nat.digitChar (byte.toNat % 16)).toUpper]

/-- The bytes in upper-case hexadecimal digits, separated by spaces. -/
def hex (buffer : Buffer) : String := " ".intercalate (buffer.bytes.map hexByte)

/-! ### Ranges -/

/-- The bytes `[offset, offset + length)` are all in the buffer. -/
def checkRange (buffer : Buffer) (offset length : Nat) : Except AccessError Unit :=
  if offset + length ≤ Extent.limit ∧ offset + length ≤ buffer.length then .ok ()
  else .error (.outOfRange offset length buffer.length)

/-- The bytes `[offset, offset + length)`. -/
def slice (buffer : Buffer) (offset length : Nat) : Except AccessError (List UInt8) := do
  buffer.checkRange offset length
  return (buffer.bytes.drop offset).take length

/-- The buffer with the bytes from `offset` on replaced by as many other bytes. -/
def replace (buffer : Buffer) (offset : Nat) (bytes : List UInt8) : Buffer :=
  ⟨buffer.bytes.take offset ++ bytes ++ buffer.bytes.drop (offset + bytes.length)⟩

/-- The buffer with the bytes `[offset, offset + length)` all set to one byte. -/
def fill (buffer : Buffer) (offset length : Nat) (byte : UInt8) : Except AccessError Buffer := do
  buffer.checkRange offset length
  return buffer.replace offset (List.replicate length byte)

/-- The byte at an offset. -/
def byte? (buffer : Buffer) (offset : Nat) : Option UInt8 := buffer.bytes[offset]?

/-- The buffer with another byte at an offset; past its end nothing changes. -/
def setByte (buffer : Buffer) (offset : Nat) (byte : UInt8) : Buffer :=
  ⟨buffer.bytes.set offset byte⟩

/-- The bytes from an offset on. -/
def tail (buffer : Buffer) (offset : Nat) : Except AccessError (List UInt8) :=
  buffer.slice offset (buffer.length - offset)

/-! ### Typed access -/

/-- The buffer with `bytes` stored at an offset. -/
def writeRaw (buffer : Buffer) (offset : Nat) (bytes : List UInt8) :
    Except StoreError Buffer := do
  (buffer.checkRange offset bytes.length).mapError AccessError.toStoreError
  return buffer.replace offset bytes

/-- The unsigned integer of `size` bytes at an offset. -/
def readInt (buffer : Buffer) (offset size : Nat) (order : ByteOrder) :
    Except AccessError Nat := do
  Bytes.readWord size order (← buffer.tail offset)

/-- The buffer with the `size` lowest bytes of `value` stored at an offset. -/
def writeInt (buffer : Buffer) (offset value size : Nat) (order : ByteOrder) :
    Except StoreError Buffer := do
  let tail ← (buffer.tail offset).mapError AccessError.toStoreError
  return buffer.replace offset (← Bytes.writeWord value size order tail)

/-- The `width` bits that start `bitOffset` bits into the byte at an offset. -/
def readBits (buffer : Buffer) (offset bitOffset width : Nat) : Except AccessError Nat := do
  Bytes.readField width bitOffset (← buffer.tail offset)

/-- The buffer with the `width` lowest bits of `value` stored `bitOffset` bits into the byte at an
offset. -/
def writeBits (buffer : Buffer) (offset bitOffset width value : Nat) :
    Except StoreError Buffer := do
  let tail ← (buffer.tail offset).mapError AccessError.toStoreError
  return buffer.replace offset (← Bytes.writeField value width bitOffset tail)

/-- The value of a layout placed at an offset. -/
def unpack (buffer : Buffer) (layout : Layout) (offset : Nat) : Except AccessError Value :=
  (View.ofLayout layout offset).read buffer.bytes

/-- The buffer after a value is stored at a view. -/
def write (buffer : Buffer) (view : View) (value : Value) : Except StoreError Buffer := do
  return ⟨← view.write buffer.bytes value⟩

end Buffer

end BinaryLayout
