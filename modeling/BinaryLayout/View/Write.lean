import BinaryLayout.View.Read

/-!
# Writing through a view

A view of a single field stores a value into a target. The checks come in a fixed order: the
layout has to be a field, the value has to be one that the field can hold, and the target has to
hold the field. A target that fails them is not changed.

An integer field holds the integers of its size and signedness, a single bit the truth values and
the integers 0 and 1, several bits the integers below the power of two, and a run of raw bytes any
byte string that is not longer; the rest of the run is filled with zeros.
-/

namespace BinaryLayout

/-- The bytes of a target from an offset on. -/
def tailFrom (target : List UInt8) (offset : Nat) : Except AccessError (List UInt8) :=
  if offset ≤ target.length then .ok (target.drop offset)
  else .error (.tooShort offset target.length)

/-- A value in the form in which a field stores it. -/
inductive Stored where
  /-- A number whose lowest bits are stored. -/
  | word (word : Nat)
  /-- Bytes at the front of a run. -/
  | bytes (bytes : List UInt8)
  deriving DecidableEq, Repr

namespace Field

/-- The number below `2 ^ 64` that has the same 64 bits as an integer in two's complement. -/
def wordOfInt (i : Int) : Nat := (i % Bytes.patterns 64).toNat

/-- The largest number of `bits` bits, where no number has more than 64. -/
def mask (bits : Nat) : Nat := Bytes.patterns (min bits 64) - 1

/-- The form in which a field stores a value, if it can hold it. -/
def store? : Field → Value → Option Stored
  | .integer .signed size _, value =>
    match value.signed64? with
    | some i =>
      if 64 ≤ 8 * size ∨
          (-(Bytes.patterns (8 * size - 1) : Int) ≤ i ∧ i < Bytes.patterns (8 * size - 1)) then
        some (.word (wordOfInt i))
      else none
    | none => none
  | .integer .unsigned size _, value =>
    match value.unsigned64? with
    | some n => if n ≤ mask (8 * size) then some (.word n) else none
    | none => none
  | .bits width _, value =>
    match width, value with
    | 1, .bool b => some (.word b.toNat)
    | width, value =>
      match value.unsigned64? with
      | some n => if n ≤ mask width then some (.word n) else none
      | none => none
  | .raw size, value =>
    match value.bytes? with
    | some bytes => if bytes.length ≤ size then some (.bytes bytes) else none
    | none => none

/-- The sizes that a field can be stored with. -/
def checkStorable : Field → Except StoreError Unit
  | .integer _ size _ =>
    if size < 1 ∨ Bytes.maxWordSize < size then .error (.badWidth size) else .ok ()
  | _ => .ok ()

/-- The form in which a field stores a value. -/
def encode (field : Field) (value : Value) : Except StoreError Stored := do
  field.checkStorable
  match field.store? value with
  | some stored => return stored
  | none => throw (.mismatch field.signature value)

/-- The bytes from the location of a field on, after a value is stored there. A form in which the
field stores nothing is refused like a value that it cannot hold. -/
def write (field : Field) (value : Value) (stored : Stored) (bit : Nat) (tail : List UInt8) :
    Except StoreError (List UInt8) :=
  match field, stored with
  | .integer _ size order, .word word => Bytes.writeWord word size order tail
  | .bits width _, .word word => Bytes.writeField word width bit tail
  | .raw size, .bytes bytes =>
    .ok (bytes ++ List.replicate (size - bytes.length) 0 ++ tail.drop size)
  | _, _ => .error (.mismatch field.signature value)

end Field

namespace View

/-- The target after a value is stored at the view. -/
def write (view : View) (target : List UInt8) (value : Value) : Except StoreError (List UInt8) :=
  match view.layout.field? with
  | none => .error (.notImplemented view.layout.signature)
  | some field => do
    let stored ← field.encode value
    (view.checkBounds target.length).mapError AccessError.toStoreError
    let tail ← (tailFrom target view.location.byte).mapError AccessError.toStoreError
    let tail ← field.write value stored view.location.bit tail
    return target.take view.location.byte ++ tail

end View

end BinaryLayout
