import BinaryLayout.Json.Writer
import BinaryLayout.Value.Basic

/-!
# Values as JSON

Truth values and integers are written as themselves, a byte string as the array of its bytes, a
list as an array, and a record as an object with its members in order. The kind of an integer, and
whether an array was a list, is not written.
-/

namespace BinaryLayout.Value

mutual

/-- The document of a value. -/
def toJson : Value → Json
  | .bool b => .bool b
  | .int i => .int i
  | .uint n => .nat n
  | .bytes bs => .array (bs.map fun b => .nat b.toNat)
  | .list items => .array (itemsToJson items)
  | .record members => .object (membersToJson members)

/-- The documents of the items. -/
def itemsToJson : List Value → List Json
  | [] => []
  | item :: items => item.toJson :: itemsToJson items

/-- The names and documents of the members. -/
def membersToJson : List (String × Value) → List (Option String × Json)
  | [] => []
  | (name, value) :: members => (some name, value.toJson) :: membersToJson members

end

/-- The compact JSON text of a value. -/
def json (value : Value) : String := value.toJson.compact

end BinaryLayout.Value
