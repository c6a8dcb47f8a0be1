import BinaryLayout.Bytes.Binary
import BinaryLayout.Layout.Basic
import BinaryLayout.Value.Basic

/-!
# The shape of a layout's values

A layout **admits** the values that reading it can give: an integer in the range of its size, a
truth value for a single bit and a number below the power of two for several, byte strings of the
one length, a list with a value for every element or member, and a record with exactly the names of
the layout in their order.

A field **accepts** the values that can be stored in it. These are more: an integer may come from a
field with a sign or from one without, a single bit takes 0 and 1 as well, and a byte string may be
shorter than the run that it is stored in.
-/

namespace BinaryLayout

/-- The field can have the value. -/
def Field.Admits : Field → Value → Prop
  | .integer .signed size _, .int i =>
    -(Bytes.patterns (8 * size - 1) : Int) ≤ i ∧ i < Bytes.patterns (8 * size - 1)
  | .integer .unsigned size _, .uint n => n < Bytes.patterns (8 * size)
  | .bits width _, .bool _ => width = 1
  | .bits width _, .uint n => width ≠ 1 ∧ n < Bytes.patterns width
  | .raw size, .bytes bytes => bytes.length = size
  | _, _ => False

/-- The integer, of either kind. -/
def Value.integer? : Value → Option Int
  | .int i => some i
  | .uint n => some n
  | _ => none

/-- The value can be stored in the field. -/
def Field.Accepts : Field → Value → Prop
  | .integer .signed size _, value => ∃ i ∈ value.integer?,
    -(Bytes.patterns (8 * size - 1) : Int) ≤ i ∧ i < Bytes.patterns (8 * size - 1)
  | .integer .unsigned size _, value => ∃ i ∈ value.integer?,
    0 ≤ i ∧ i < Bytes.patterns (8 * size)
  | .bits width _, value => (width = 1 ∧ value.bool?.isSome) ∨
    ∃ i ∈ value.integer?, 0 ≤ i ∧ i < Bytes.patterns width
  | .raw size, value => ∃ bytes ∈ value.bytes?, bytes.length ≤ size

instance (field : Field) (value : Value) : Decidable (field.Accepts value) :=
  match field with
  | .integer .signed _ _ => inferInstanceAs (Decidable (∃ i ∈ value.integer?, _))
  | .integer .unsigned _ _ => inferInstanceAs (Decidable (∃ i ∈ value.integer?, _))
  | .bits _ _ => inferInstanceAs (Decidable (_ ∨ ∃ i ∈ value.integer?, _))
  | .raw _ => inferInstanceAs (Decidable (∃ bytes ∈ value.bytes?, _))

namespace Layout

mutual

/-- The layout can have the value. -/
def Admits : Layout → Value → Prop
  | .atom _ field, value => field.Admits value
  | .array _ element count _, .list values =>
    values.length = count ∧ ∀ value ∈ values, element.Admits value
  | .group _ .positional members _ _, .list values => AdmitAll members values
  | .group _ (.named names) members _ _, .record named =>
    named.map Prod.fst = names ∧ AdmitAll members (named.map Prod.snd)
  | _, _ => False

/-- The layouts can have the values, one for one. -/
def AdmitAll : List Layout → List Value → Prop
  | [], [] => True
  | member :: members, value :: values => member.Admits value ∧ AdmitAll members values
  | _, _ => False

end

end Layout

end BinaryLayout
