import BinaryLayout.View.Write

/-!
# Storing in place

A store gives a new target or a cause. When a target is changed where it lies, its bytes are
overwritten one run after the other, and what is overwritten before a store is refused stays
overwritten. An `InPlace` computation looks at a target, overwrites parts of it, and may be refused
on the way; what it leaves behind is known in every case.

It may also **overstep**: address bytes that the target does not have, or give bytes a number that
they cannot hold. Then there is no outcome at all.

The stores of integers, bit fields and values are written here as such computations, with their
checks and their changes in the order in which they are made. `allOrNothing` is what a store should
leave behind: the new target, or the old one with the cause.
-/

namespace BinaryLayout

/-- A computation that changes a target in place, and may be refused or overstep. -/
abbrev InPlace (α : Type) := ExceptT StoreError (StateT (List UInt8) Option) α

namespace InPlace

variable {α : Type}

/-- The outcome on a target, and the target that is left; nothing if the computation oversteps. -/
def on (action : InPlace α) (target : List UInt8) : Option (Except StoreError α × List UInt8) :=
  action.run.run target

/-- What a store leaves behind that is made as a whole or not at all. -/
def allOrNothing (target : List UInt8) :
    Except StoreError (List UInt8) → Except StoreError Unit × List UInt8
  | .ok target' => (.ok (), target')
  | .error cause => (.error cause, target)

/-- A step with no outcome. -/
def overstep : InPlace α := ExceptT.mk fun _ => none

/-- A step that has to succeed and changes nothing. -/
def require (result : Except StoreError α) : InPlace α := ExceptT.mk (pure result)

/-- Overwrites the bytes from an offset on, which have to be there. -/
def overwrite (offset : Nat) (bytes : List UInt8) : InPlace Unit := do
  let target ← get
  if offset + bytes.length ≤ target.length then
    set (target.take offset ++ bytes ++ target.drop (offset + bytes.length))
  else overstep

/-- Overwrites `size` bytes from an offset on with a number, which has to fit them. -/
def overwriteNumber (offset size number : Nat) (order : ByteOrder) : InPlace Unit :=
  if number < Bytes.patterns (8 * size) then
    overwrite offset (order.arrange (Bytes.ofNat size number))
  else overstep

end InPlace

open InPlace (require overwrite overwriteNumber)

namespace Bytes

/-- Stores the `size` lowest bytes of `value` at an offset. -/
def storeWord (offset value size : Nat) (order : ByteOrder) : InPlace Unit := do
  let tail := (← get).drop offset
  require ((checkWord size tail.length).mapError AccessError.toStoreError)
  overwriteNumber offset size (lowBits value (8 * size)) order

/-- Stores the `width` lowest bits of `value` from a bit of the byte at an offset on. The bytes of
the span are overwritten as one number. -/
def storeField (offset value width bitOffset : Nat) : InPlace Unit := do
  let tail := (← get).drop offset
  require ((checkField width bitOffset tail.length).mapError AccessError.toStoreError)
  let covered := toNat (tail.take (span width bitOffset))
  let merged := splice covered (fieldShift width bitOffset) width value
  overwriteNumber offset (span width bitOffset) merged .big

end Bytes

namespace Field

/-- Stores a value at a location in the form that a field has for it. A run of raw bytes is
overwritten in two parts: the bytes themselves, and the zeros that fill it up. -/
def storeAt (field : Field) (value : Value) (stored : Stored) (location : Location) :
    InPlace Unit :=
  match field, stored with
  | .integer _ size order, .word word => Bytes.storeWord location.byte word size order
  | .bits width _, .word word => Bytes.storeField location.byte word width location.bit
  | .raw size, .bytes bytes => do
    overwrite location.byte bytes
    overwrite (location.byte + bytes.length) (List.replicate (size - bytes.length) 0)
  | _, _ => require (.error (.mismatch field.signature value))

end Field

namespace View

/-- Stores a value at the view. -/
def store (view : View) (value : Value) : InPlace Unit :=
  match view.layout.field? with
  | none => require (.error (.notImplemented view.layout.signature))
  | some field => do
    let stored ← require (field.encode value)
    let target ← get
    require ((view.checkBounds target.length).mapError AccessError.toStoreError)
    let _ ← require ((tailFrom target view.location.byte).mapError AccessError.toStoreError)
    field.storeAt value stored view.location

end View

end BinaryLayout
