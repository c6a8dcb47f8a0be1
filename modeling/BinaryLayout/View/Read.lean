import BinaryLayout.Bytes.BitField
import BinaryLayout.View.Basic

/-!
# Reading through a view

A view reads the value of its layout from a target. The whole span of the view is compared with
the length of the target first. Then every field is read where it lies: the offsets of members are
added up on the way down, so no field is looked at before the one that is wanted. The bytes that a
field touches are taken out of an array, so that a field far from the start of the target costs no
more than one near to it.

An integer takes its bytes, a run of raw bytes is copied, and bits are read from their bit on; a
single bit is a truth value, several are an unsigned integer.
-/

namespace BinaryLayout

/-- The bytes of a target from `offset` on: `size` of them, or as many as there are. -/
def window (target : Array UInt8) (offset size : Nat) : List UInt8 :=
  (target.extract offset (offset + size)).toList

/-- A window holds the first bytes of what is left of the target behind `offset`. -/
theorem window_toArray (target : List UInt8) (offset size : Nat) :
    window target.toArray offset size = (target.drop offset).take size := by
  simp [window]

/-- The offset is that of a byte of the target, or the end of the target. -/
def checkOffset (target : Array UInt8) (offset : Nat) : Except AccessError Unit :=
  if offset ≤ target.size then .ok () else .error (.tooShort offset target.size)

/-- The value of a field at a location of the target. -/
def Field.read (target : Array UInt8) (location : Location) :
    Field → Except AccessError Value
  | .integer .signed size order => do
    let word ← Bytes.readWord size order (window target location.byte size)
    return .int (Bytes.signExtend word (8 * size))
  | .integer .unsigned size order => do
    let word ← Bytes.readWord size order (window target location.byte size)
    return .uint word
  | .bits width _ => do
    let touched := window target location.byte (Bytes.span width location.bit)
    let bits ← Bytes.readField width location.bit touched
    return if width = 1 then .bool (bits == 1) else .uint bits
  | .raw size =>
    let run := window target location.byte size
    if run.length = size then .ok (.bytes run)
    else .error (.tooShort (Extent.satAdd location.byte size) target.size)

namespace Layout

/-- The value of a group whose members have the given values. -/
def assemble (labels : Labels) (values : List Value) : Value :=
  match labels with
  | .positional => .list values
  | .named names => .record (names.zip values)

mutual

/-- The value of a layout at a location of the target. -/
def read (target : Array UInt8) : Layout → Location → Except AccessError Value
  | .atom _ field, location => do
    checkOffset target location.byte
    field.read target location
  | .array _ element count _, location => do
    checkOffset target location.byte
    let values ← (List.range count).mapM fun i =>
      element.read target (location.advance (i * element.bitSize))
    return .list values
  | .group _ labels members offsets _, location => do
    checkOffset target location.byte
    let values ← readMembers target members offsets location
    return assemble labels values

/-- The values of members at their offsets from a location. -/
def readMembers (target : Array UInt8) :
    List Layout → List Nat → Location → Except AccessError (List Value)
  | member :: members, offset :: offsets, location => do
    let value ← member.read target (location.advance offset)
    let values ← readMembers target members offsets location
    return value :: values
  | _, _, _ => return []

end

end Layout

namespace View

/-- The target holds every byte that the view touches. -/
def checkBounds (view : View) (available : Nat) : Except AccessError Unit :=
  let needed := Extent.satAdd view.location.byte view.byteSize
  if available < needed then .error (.tooShort needed available) else .ok ()

/-- The value that the view has in a target. -/
def read (view : View) (target : List UInt8) : Except AccessError Value := do
  view.checkBounds target.length
  view.layout.read target.toArray view.location

end View

end BinaryLayout
