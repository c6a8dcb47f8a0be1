import BinaryLayout.Layout.Basic
import BinaryLayout.Layout.Error

/-!
# Placing members

Members are laid back to back. A member that is not bit packed has to start on a byte boundary,
and the end of every member has to be an addressable bit; otherwise no composite is built.

`arrayOf`, `sequenceOf` and `recordOf` build composites. An array tests the start of its second
element only: elements are equal, so they all start on a boundary if the second does. A record
looks at its names before it looks at its members.
-/

namespace BinaryLayout.Layout

/-- The layout may start `bit` bits into the composite. -/
def checkStart (layout : Layout) (bit : Nat) : Except BuildError Unit :=
  if bit % 8 ≠ 0 ∧ layout.isBitPacked = false then
    .error (.misaligned layout.signature (bit % 8))
  else .ok ()

/-- The bit offsets of layouts laid back to back from bit `start` on, and the end of the last.
The group they are laid out for has `length` members. -/
def layOut (length : Nat) : List Layout → Nat → Except BuildError (List Nat × Nat)
  | [], start => .ok ([], start)
  | layout :: layouts, start => do
    layout.checkStart start
    match Extent.add? start layout.bitSize with
    | none => .error (.tooLarge (.group length))
    | some next =>
      let (offsets, finish) ← layOut length layouts next
      return (start :: offsets, finish)

/-- An array of `count` elements. -/
def arrayOf (handle : Handle) (element : Layout) (count : Nat) : Except BuildError Layout := do
  if 1 < count then element.checkStart element.bitSize
  match Extent.mul? count element.bitSize with
  | none => .error (.tooLarge (.array count element.signature))
  | some bitSize => return .array handle element count bitSize

/-- A group of the given members. -/
def groupOf (handle : Handle) (labels : Labels) (members : List Layout) :
    Except BuildError Layout := do
  let (offsets, bitSize) ← layOut members.length members 0
  return .group handle labels members offsets bitSize

/-- A group of members without names. -/
def sequenceOf (handle : Handle) (members : List Layout) : Except BuildError Layout :=
  groupOf handle .positional members

/-- The first name that stands among the names before it or in `seen`. -/
def firstRepeat : List String → List String → Option String
  | _, [] => none
  | seen, name :: names => if name ∈ seen then some name else firstRepeat (name :: seen) names

/-- Names are fit for the members of one record: none of them repeats. -/
def checkNames (names : List String) : Except BuildError Unit :=
  match firstRepeat [] names with
  | some name => .error (.duplicateName name)
  | none => .ok ()

/-- A group of members with names. -/
def recordOf (handle : Handle) (members : List (String × Layout)) : Except BuildError Layout := do
  checkNames (members.map Prod.fst)
  groupOf handle (.named (members.map Prod.fst)) (members.map Prod.snd)

end BinaryLayout.Layout
