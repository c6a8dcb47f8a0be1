import BinaryLayout.Layout.Placement

/-!
# Built layouts and their exact sizes

A layout is **built** from fields when it is one of them or comes from the constructors of arrays,
sequences and records applied to built layouts. Fields are **valid** when their numbers are in the
ranges in which they can be read and stored, and **countable** when so many bits can be counted.

The **exact size** of a layout adds up its fields in natural numbers, without a limit and without
the numbers kept in its nodes.
-/

namespace BinaryLayout

/-- The numbers of the field are in range. -/
def Field.Valid : Field → Prop
  | .integer _ size _ => 1 ≤ size ∧ size ≤ 8
  | .bits width offset => 1 ≤ width ∧ width ≤ 64 ∧ offset ≤ 7
  | .raw size => 1 ≤ size ∧ size ≤ Extent.limit / 8

/-- The bits of the field can be counted. This is so of valid fields, and of others. -/
def Field.Countable (field : Field) : Prop := field.exactBitSize ≤ Extent.limit

instance : DecidablePred Field.Countable := fun _ => Nat.decLe _ _

namespace Layout

mutual

/-- The number of bits of the fields of a layout, without a limit. -/
def exactBitSize : Layout → Nat
  | .atom _ field => field.exactBitSize
  | .array _ element count _ => count * element.exactBitSize
  | .group _ _ members _ _ => exactBitSizes members

/-- The number of bits of the fields of some layouts, without a limit. -/
def exactBitSizes : List Layout → Nat
  | [] => 0
  | layout :: layouts => layout.exactBitSize + exactBitSizes layouts

end

/-- The layout is made by the constructors of composites from fields with the property. -/
inductive Built (property : Field → Prop) : Layout → Prop
  | atom {handle : Handle} {field : Field} (h : property field) :
      Built property (.atom handle field)
  | array {handle : Handle} {element layout : Layout} {count : Nat} (he : Built property element)
      (h : arrayOf handle element count = .ok layout) : Built property layout
  | sequence {handle : Handle} {members : List Layout} {layout : Layout}
      (hm : ∀ member ∈ members, Built property member)
      (h : sequenceOf handle members = .ok layout) : Built property layout
  | record {handle : Handle} {members : List (String × Layout)} {layout : Layout}
      (hm : ∀ member ∈ members, Built property member.2)
      (h : recordOf handle members = .ok layout) : Built property layout

end Layout

end BinaryLayout
