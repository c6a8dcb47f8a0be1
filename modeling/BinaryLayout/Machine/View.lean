import BinaryLayout.Machine.Bytes
import BinaryLayout.View.Write

/-!
# Views on a machine

A view of a layout is asked for its size and its members, read and stored through with the
operations of a machine. Locations saturate, and so does the end of a view that the length of a
target is compared with. The offsets of the elements of an array are products, those of the members
of a group are looked up in its table, and the keys of members without names count from one.

The numbers in a layout may be any. An integer that no one can read or a bit field of no bits is
part of a layout like any other field, and is refused only when its bytes are to be read or stored.
-/

namespace BinaryLayout.Machine

variable {ε : Type}

/-! ### Members -/

/-- The number of bytes that a view touches. -/
def byteSize (view : View) : Machine ε Nat :=
  divCeil (Extent.satAdd view.location.bit view.layout.bitSize) 8

/-- The member of a layout at a position, counted from zero, and its bit offset. -/
def layoutMember? (position : Nat) : Layout → Machine ε (Option (Layout × Nat))
  | .atom _ _ => return none
  | .array _ element count _ =>
    if position < count then do
      let start ← mul position element.bitSize
      return some (element, start)
    else return none
  | .group _ _ members offsets _ =>
    match members[position]? with
    | none => return none
    | some member => do
      let start ← entry offsets position
      return some (member, start)

/-- The view of the member at a position, counted from zero. -/
def member? (view : View) (position : Nat) : Machine ε (Option View) := do
  let found ← layoutMember? position view.layout
  return found.map fun (member, start) => ⟨member, view.location.advance start⟩

/-- The view of the member that a key selects, if it selects one. -/
def index (view : View) (key : Key) : Machine AccessError (Option View) :=
  if view.layout.isAtomic then throw (.notIndexable view.layout.signature)
  else
    match View.positionOf? view.layout key with
    | none => return none
    | some position => member? view position

/-- The key of the member at a position, counted from zero. -/
def keyAt? (layout : Layout) (position : Nat) : Machine ε (Option Key) :=
  match layout.names? with
  | some names => return names[position]?.map .name
  | none => do
    let number ← add position 1
    return some (.index number)

/-- The next of the members of a view with its key, and the members after it. -/
def next (members : View.Members) : Machine ε (Option (Key × View) × View.Members) :=
  if members.count ≤ members.next then return (none, members)
  else do
    let after ← add members.next 1
    let key ← keyAt? members.view.layout members.next
    match key with
    | none => return (none, { members with next := after })
    | some key => do
      let member ← member? members.view members.next
      return (member.map (key, ·), { members with next := after })

/-- The next `n` members of a view, or all that are left. -/
def take : Nat → View.Members → Machine ε (List (Key × View))
  | 0, _ => return []
  | n + 1, members => do
    let (member, after) ← next members
    match member with
    | none => return []
    | some member => do
      let members ← take n after
      return member :: members

/-- The number of members still to come. -/
def remaining (members : View.Members) : Machine ε Nat := sub members.count members.next

/-! ### Reading -/

/-- The target holds every byte that the view touches. -/
def checkBounds (view : View) (available : Nat) : Machine AccessError Unit := do
  let size ← byteSize view
  let needed := (Extent.add? view.location.byte size).getD Extent.limit
  if available < needed then throw (.tooShort needed available) else return

/-- The value of a field at a location of the target, whose bytes from there on are `tail`. -/
def readTail (target : List UInt8) (location : Location) (tail : List UInt8) :
    Field → Machine AccessError Value
  | .integer .signed size order => do
    let word ← readWord size order tail
    let bits ← mul size 8
    let i ← signExtend word bits
    return .int i
  | .integer .unsigned size order => do
    let word ← readWord size order tail
    return .uint word
  | .bits width _ => do
    let bits ← readField width location.bit tail
    return if width = 1 then .bool (bits == 1) else .uint bits
  | .raw size =>
    if size ≤ tail.length then return .bytes (tail.take size)
    else throw (.tooShort (Extent.satAdd location.byte size) target.length)

mutual

/-- The value of a layout at a location of the target. -/
def readAt (target : List UInt8) : Layout → Location → Machine AccessError Value
  | .atom _ field, location => do
    let tail ← ofExcept (tailFrom target location.byte)
    readTail target location tail field
  | .array _ element count _, location => do
    let _ ← ofExcept (tailFrom target location.byte)
    let values ← (List.range count).mapM fun i => do
      let start ← mul i element.bitSize
      readAt target element (location.advance start)
    return .list values
  | .group _ labels members offsets _, location => do
    let _ ← ofExcept (tailFrom target location.byte)
    let values ← readMembersAt target members offsets location
    return Layout.assemble labels values

/-- The values of members at their offsets from a location. -/
def readMembersAt (target : List UInt8) :
    List Layout → List Nat → Location → Machine AccessError (List Value)
  | member :: members, offset :: offsets, location => do
    let value ← readAt target member (location.advance offset)
    let values ← readMembersAt target members offsets location
    return value :: values
  | _, _, _ => return []

end

/-- The value that a view has in a target. -/
def read (view : View) (target : List UInt8) : Machine AccessError Value := do
  checkBounds view target.length
  readAt target view.layout view.location

/-! ### Writing -/

/-- The signed integer whose bit at a position is set alone. -/
def signedPower (position : Nat) : Machine ε Int := do
  let word ← shiftLeft 64 1 position
  return toSigned word

/-- The signed integer is one of `bits` bits. -/
def fitsSigned (i : Int) (bits : Nat) : Machine ε Bool :=
  if 64 ≤ bits then return true
  else do
    let position ← sub bits 1
    let high ← signedPower position
    let low ← negate high
    return low ≤ i && i < high

/-- The word of a number of 64 bits, if it is not above the mask of the bits. -/
def wordBelow? (value : Value) (bits : Nat) : Machine ε (Option Stored) :=
  match value.unsigned64? with
  | none => return none
  | some n => do
    let mask ← mask bits
    return if n ≤ mask then some (.word n) else none

/-- The form in which a field stores a value, if it can hold it. -/
def store? : Field → Value → Machine ε (Option Stored)
  | .integer .signed size _, value =>
    match value.signed64? with
    | none => return none
    | some i => do
      let bits ← mul size 8
      let fits ← fitsSigned i bits
      return if fits then some (.word (Field.wordOfInt i)) else none
  | .integer .unsigned size _, value => do
    let bits ← mul size 8
    wordBelow? value bits
  | .bits width _, value =>
    match width, value with
    | 1, .bool b => return some (.word b.toNat)
    | width, value => wordBelow? value width
  | .raw size, value =>
    match value.bytes? with
    | none => return none
    | some bytes => return if bytes.length ≤ size then some (.bytes bytes) else none

/-- The form in which a field stores a value. -/
def encode (field : Field) (value : Value) : Machine StoreError Stored := do
  ofExcept field.checkStorable
  let stored ← store? field value
  match stored with
  | some stored => return stored
  | none => throw (.mismatch field.signature value)

/-- The bytes from the location of a field on, after a value is stored there. -/
def writeTail (field : Field) (value : Value) (stored : Stored) (bit : Nat) (tail : List UInt8) :
    Machine StoreError (List UInt8) :=
  match field, stored with
  | .integer _ size order, .word word => writeWord word size order tail
  | .bits width _, .word word => writeField word width bit tail
  | .raw size, .bytes bytes => do
    let run ← front tail size
    let (head, rest) ← split run bytes.length
    let head ← copy head bytes
    return head ++ List.replicate rest.length 0 ++ tail.drop size
  | _, _ => throw (.mismatch field.signature value)

/-- The target after a value is stored at the view. -/
def write (view : View) (target : List UInt8) (value : Value) : Machine StoreError (List UInt8) :=
  match view.layout.field? with
  | none => throw (.notImplemented view.layout.signature)
  | some field => do
    let stored ← encode field value
    toStore (checkBounds view target.length)
    let tail ← ofExcept ((tailFrom target view.location.byte).mapError AccessError.toStoreError)
    let tail ← writeTail field value stored view.location.bit tail
    return target.take view.location.byte ++ tail

end BinaryLayout.Machine
