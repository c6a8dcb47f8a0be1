import BinaryLayout.Field

/-!
# Layouts

A **layout** says where in a run of bits which fields lie. It is a single field, an array of
equal elements, or a group of members one after the other; the members of a group may carry names.
Composites keep what is worked out once when they are built: their size in bits, and for a group
the bit offset of each member from its start.

Layouts are shared. Every node carries a handle, issued when the node was made, and two nodes with
the same handle are one instance. `sameStructure` compares layouts with no regard to handles.
-/

namespace BinaryLayout

/-- What tells the instances of layouts apart: who issued the handle, and which in turn it is. -/
structure Handle where
  /-- The issuer. -/
  owner : Nat
  /-- The number of the handle among those of its issuer. -/
  serial : Nat
  deriving DecidableEq, Repr

/-- How the members of a group are told apart. -/
inductive Labels where
  /-- By their positions alone. -/
  | positional
  /-- By their names, in the order of the members. -/
  | named (names : List String)
  deriving DecidableEq, Repr

/-- Where in a run of bits which fields lie. -/
inductive Layout where
  /-- A single field. -/
  | atom (handle : Handle) (field : Field)
  /-- `count` elements one after the other, `bitSize` bits in all. -/
  | array (handle : Handle) (element : Layout) (count bitSize : Nat)
  /-- Members one after the other, each `offsets` bits from the start, `bitSize` bits in all. -/
  | group (handle : Handle) (labels : Labels) (members : List Layout) (offsets : List Nat)
      (bitSize : Nat)
  deriving Repr

namespace Layout

instance : Inhabited Layout := ⟨.atom ⟨0, 0⟩ default⟩

/-! ### Instances -/

/-- The handle of the topmost node. -/
def handle : Layout → Handle
  | .atom handle _ => handle
  | .array handle _ _ _ => handle
  | .group handle _ _ _ _ => handle

/-- The layout with another handle at its topmost node: another instance of the same structure,
with the same members. -/
def withHandle (handle : Handle) : Layout → Layout
  | .atom _ field => .atom handle field
  | .array _ element count bitSize => .array handle element count bitSize
  | .group _ labels members offsets bitSize => .group handle labels members offsets bitSize

/-- The two are one shared instance. -/
def sameInstance (a b : Layout) : Bool := a.handle == b.handle

mutual

/-- The two have the same structure, whatever instances they consist of. -/
def sameStructure : Layout → Layout → Bool
  | .atom _ field, .atom _ field' => field == field'
  | .array _ element count bitSize, .array _ element' count' bitSize' =>
    sameStructure element element' && count == count' && bitSize == bitSize'
  | .group _ labels members offsets bitSize, .group _ labels' members' offsets' bitSize' =>
    labels == labels' && sameStructures members members' && offsets == offsets' &&
      bitSize == bitSize'
  | _, _ => false

/-- The two lists have the same structures in the same order. -/
def sameStructures : List Layout → List Layout → Bool
  | [], [] => true
  | a :: as, b :: bs => sameStructure a b && sameStructures as bs
  | _, _ => false

end

/-! ### Properties -/

/-- The field that the layout consists of. -/
def field? : Layout → Option Field
  | .atom _ field => some field
  | _ => none

/-- The layout is a single field. -/
def isAtomic (layout : Layout) : Bool := layout.field?.isSome

/-- The number of bits from the start of the layout to its end. -/
def bitSize : Layout → Nat
  | .atom _ field => field.bitSize
  | .array _ _ _ bitSize => bitSize
  | .group _ _ _ _ bitSize => bitSize

/-- The number of bytes that the layout touches. -/
def byteSize : Layout → Nat
  | .atom _ field => field.byteSize
  | .array _ _ _ bitSize => Extent.bytesFor bitSize
  | .group _ _ _ _ bitSize => Extent.bytesFor bitSize

/-- The bit of its first byte at which the layout starts. -/
def bitOffset : Layout → Nat
  | .atom _ field => field.bitOffset
  | _ => 0

mutual

/-- The layout may start at any bit: it consists of bit fields alone. An array without elements
does, whatever its elements would be. -/
def isBitPacked : Layout → Bool
  | .atom _ field => field.isBitPacked
  | .array _ element count _ => count == 0 || element.isBitPacked
  | .group _ _ members _ _ => allBitPacked members

/-- Every one of the layouts may start at any bit. -/
def allBitPacked : List Layout → Bool
  | [] => true
  | layout :: layouts => layout.isBitPacked && allBitPacked layouts

end

/-- The name of the kind of the layout. -/
def kind : Layout → String
  | .atom _ field => field.kind
  | .array _ _ _ _ => "Array"
  | .group _ .positional _ _ _ => "Sequence"
  | .group _ (.named _) _ _ _ => "Struct"

/-- The kind of the layout with its numbers, for a composite the number of its members. -/
def signature : Layout → String
  | .atom _ field => field.signature
  | .array _ _ count _ => "Array[" ++ toString count ++ "]"
  | .group _ .positional members _ _ => "Sequence[" ++ toString members.length ++ "]"
  | .group _ (.named _) members _ _ => "Struct[" ++ toString members.length ++ "]"

/-! ### Members -/

/-- The number of members; a field has none to count. -/
def memberCount? : Layout → Option Nat
  | .atom _ _ => none
  | .array _ _ count _ => some count
  | .group _ _ members _ _ => some members.length

/-- The layouts that the members have: for an array the one of its elements, for a group those of
its members in order. -/
def members? : Layout → Option (List Layout)
  | .atom _ _ => none
  | .array _ element _ _ => some [element]
  | .group _ _ members _ _ => some members

/-- The member at a position, counted from zero, and its bit offset. -/
def member? (position : Nat) : Layout → Option (Layout × Nat)
  | .atom _ _ => none
  | .array _ element count _ =>
    if position < count then some (element, position * element.bitSize) else none
  | .group _ _ members offsets _ =>
    match members[position]?, offsets[position]? with
    | some member, some offset => some (member, offset)
    | _, _ => none

/-- The byte in which the member of a group at a position starts, counted from the start of the
group. -/
def byteOffset? (position : Nat) : Layout → Option Nat
  | .group _ _ _ offsets _ => offsets[position]?.map (· / 8)
  | _ => none

/-- The names of the members, if they have names. -/
def names? : Layout → Option (List String)
  | .group _ (.named names) _ _ _ => some names
  | _ => none

/-- The name of the member at a position. -/
def name? (position : Nat) (layout : Layout) : Option String :=
  match layout.names? with
  | some names => names[position]?
  | none => none

/-- The position of the member called `name`. -/
def position? (name : String) (layout : Layout) : Option Nat :=
  match layout.names? with
  | some names => names.findIdx? (· == name)
  | none => none

end Layout

end BinaryLayout
