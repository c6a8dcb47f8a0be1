import BinaryLayout.Buffer
import BinaryLayout.InPlace

/-!
# Edits of buffers

An **edit** is one store into a buffer: raw bytes, an integer, a bit field, or a value through a
view. `Edit.apply` gives the new buffer or a cause, and `Edit.perform` changes the buffer in place.

Edits are made one after the other. One that is refused does not keep those after it from being
made, so a run of edits is a list of edits with the outcome of each (`Edit.Run`). A run ends only if
no edit oversteps.
-/

namespace BinaryLayout.Buffer

/-- A store into a buffer. -/
inductive Edit where
  /-- The bytes at an offset. -/
  | raw (offset : Nat) (bytes : List UInt8)
  /-- The `size` lowest bytes of `value` at an offset. -/
  | integer (offset value size : Nat) (order : ByteOrder)
  /-- The `width` lowest bits of `value`, `bitOffset` bits into the byte at an offset. -/
  | bits (offset bitOffset width value : Nat)
  /-- A value at a view. -/
  | field (view : View) (value : Value)

namespace Edit

/-- The buffer after an edit. -/
def apply (buffer : Buffer) : Edit → Except StoreError Buffer
  | .raw offset bytes => buffer.writeRaw offset bytes
  | .integer offset value size order => buffer.writeInt offset value size order
  | .bits offset bitOffset width value => buffer.writeBits offset bitOffset width value
  | .field view value => buffer.write view value

/-- The edit as a change of the bytes of a buffer in place. -/
def perform : Edit → InPlace Unit
  | .raw offset bytes => do
    let buffer : Buffer := ⟨← get⟩
    InPlace.require ((buffer.checkRange offset bytes.length).mapError AccessError.toStoreError)
    InPlace.overwrite offset bytes
  | .integer offset value size order => do
    let buffer : Buffer := ⟨← get⟩
    let _ ← InPlace.require ((buffer.tail offset).mapError AccessError.toStoreError)
    Bytes.storeWord offset value size order
  | .bits offset bitOffset width value => do
    let buffer : Buffer := ⟨← get⟩
    let _ ← InPlace.require ((buffer.tail offset).mapError AccessError.toStoreError)
    Bytes.storeField offset value width bitOffset
  | .field view value => view.store value

example : (Edit.raw 1 [7, 8]).perform.on [1, 2, 3, 4] = some (.ok (), [1, 7, 8, 4]) := by rfl

example : (Edit.integer 1 0xABCD 2 .big).perform.on [0x10, 0x02] =
    some (.error (.tooShort 2 1), [0x10, 0x02]) := by rfl

/-- Edits made one after the other, each with its outcome, turn one buffer into another. -/
inductive Run : Buffer → List (Edit × Except StoreError Unit) → Buffer → Prop
  | nil {buffer : Buffer} : Run buffer [] buffer
  | cons {buffer next last : Buffer} {edit : Edit} {outcome : Except StoreError Unit}
      {later : List (Edit × Except StoreError Unit)}
      (h : edit.perform.on buffer.bytes = some (outcome, next.bytes)) (hr : Run next later last) :
      Run buffer ((edit, outcome) :: later) last

end Edit

end BinaryLayout.Buffer
