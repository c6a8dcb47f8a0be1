import BinaryLayout.Bytes.Error
import BinaryLayout.Layout.Comparison

/-!
# Views

A **view** is a layout at a location of some target: a byte offset, and a bit of that byte. It
holds no target, so one view serves all targets of the same form. The members of a composite are
viewed by indexing, with positions counted from one or with names, or one after the other.

Locations saturate: a byte offset beyond the limit becomes the limit. Nothing can be read there,
since every access compares with the length of its target first.
-/

namespace BinaryLayout

/-- A place in a target. -/
structure Location where
  /-- The offset of a byte. -/
  byte : Nat
  /-- The bit of that byte, from its most significant one on. -/
  bit : Nat
  deriving DecidableEq, Repr

/-- The location so many bits further on. -/
def Location.advance (location : Location) (bits : Nat) : Location :=
  let bits := Extent.satAdd location.bit bits
  ⟨Extent.satAdd location.byte (bits / 8), bits % 8⟩

/-- What selects a member. -/
inductive Key where
  /-- Its position, counted from one. -/
  | index (position : Nat)
  /-- Its name. -/
  | name (text : String)
  deriving DecidableEq, Repr

/-- The text of a key. -/
def Key.text : Key → String
  | .index position => toString position
  | .name text => text

/-- A layout at a location. -/
structure View where
  layout : Layout
  location : Location
  deriving Repr

namespace View

/-- The view of a layout at a byte offset. A bit field starts at its own bit of that byte. -/
def ofLayout (layout : Layout) (offset : Nat) : View := ⟨layout, ⟨offset, layout.bitOffset⟩⟩

/-- The number of bytes that the view touches. -/
def byteSize (view : View) : Nat :=
  Extent.bytesFor (Extent.satAdd view.location.bit view.layout.bitSize)

/-- The two views are of the same structure at the same location. -/
def sameAs (a b : View) : Bool := a.location == b.location && a.layout.alike b.layout

/-- The text of a view. -/
def text (view : View) : String :=
  "Reader[" ++ toString view.location.byte ++ "](" ++ view.layout.signature ++ ")"

/-! ### Members -/

/-- The number of members. A field has none to ask for. -/
def memberCount (view : View) : Except AccessError Nat :=
  match view.layout.memberCount? with
  | some count => .ok count
  | none => .error (.notIndexable view.layout.signature)

/-- There are no members. A field has none to ask for. -/
def isEmpty (view : View) : Except AccessError Bool := return (← view.memberCount) == 0

/-- The view of the member at a position, counted from zero. -/
def member? (view : View) (position : Nat) : Option View :=
  (view.layout.member? position).map fun (member, offset) => ⟨member, view.location.advance offset⟩

/-- The position, counted from zero, that a key selects among the members of a layout. -/
def positionOf? (layout : Layout) : Key → Option Nat
  | .name name => layout.position? name
  | .index 0 => none
  | .index (position + 1) => some position

/-- The view of the member that a key selects, if it selects one. -/
def index (view : View) (key : Key) : Except AccessError (Option View) :=
  if view.layout.isAtomic then .error (.notIndexable view.layout.signature)
  else .ok ((positionOf? view.layout key).bind view.member?)

/-- The key of the member at a position, counted from zero: its name if the members have names,
and its position counted from one if not. -/
def keyAt? (layout : Layout) (position : Nat) : Option Key :=
  match layout.names? with
  | some names => names[position]?.map .name
  | none => some (.index (position + 1))

/-- The members of a view from some position on. -/
structure Members where
  view : View
  /-- The position of the next member, counted from zero. -/
  next : Nat
  /-- The number of members of the view. -/
  count : Nat

/-- The members of a view, from the first one on. -/
def members (view : View) : Except AccessError Members := do
  return ⟨view, 0, ← view.memberCount⟩

namespace Members

/-- The number of members still to come. -/
def remaining (members : Members) : Nat := members.count - members.next

/-- The members without the next `n`. -/
def drop (members : Members) (n : Nat) : Members :=
  { members with next := min (members.next + n) members.count }

/-- The next member with its key. -/
def head? (members : Members) : Option (Key × View) :=
  if members.next < members.count then
    match keyAt? members.view.layout members.next, members.view.member? members.next with
    | some key, some view => some (key, view)
    | _, _ => none
  else none

/-- The next `n` members, or all that are left. -/
def take : Nat → Members → List (Key × View)
  | 0, _ => []
  | n + 1, members =>
    match members.head? with
    | some member => member :: take n (members.drop 1)
    | none => []

end Members

end View

end BinaryLayout
