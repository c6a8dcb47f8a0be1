import BinaryLayout.Layout.Basic

/-!
# Leaves of a layout

The **leaves** of a layout are the occurrences of its fields: those reached by going from member to
member, every element of an array being a member of its own. `Leaf layout path field offset` says
that the positions `path` lead to `field`, and that the bit offsets on the way add up to `offset`.

The nodes of fields, on the other hand, are the instances in the tree: the element of an array is
one node, even if the array has no elements.
-/

namespace BinaryLayout.Layout

/-- The positions lead to a field that starts at the bit offset. -/
inductive Leaf : Layout → List Nat → Field → Nat → Prop
  | atom {handle : Handle} {field : Field} : Leaf (.atom handle field) [] field 0
  | member {layout member : Layout} {position start offset : Nat} {path : List Nat} {field : Field}
      (h : layout.member? position = some (member, start)) (hl : Leaf member path field offset) :
      Leaf layout (position :: path) field (start + offset)

mutual

/-- The nodes of single fields in the tree of a layout, from left to right. -/
def fieldNodes : Layout → List Layout
  | .atom handle field => [.atom handle field]
  | .array _ element _ _ => element.fieldNodes
  | .group _ _ members _ _ => fieldNodesOf members

/-- The nodes of single fields in the trees of some layouts. -/
def fieldNodesOf : List Layout → List Layout
  | [] => []
  | layout :: layouts => layout.fieldNodes ++ fieldNodesOf layouts

end

end BinaryLayout.Layout
