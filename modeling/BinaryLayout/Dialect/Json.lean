import BinaryLayout.Dialect.Basic
import BinaryLayout.Json.Reader
import BinaryLayout.Json.Writer

/-!
# Dialects as JSON

A dialect is written as an object of six members. It is read from such an object, in which members
may be missing, in any order, and members of other names are passed over, or from an array that
gives the members in order and may end early. What is not given has its usual value. A member given
twice, or an array with more than six items, is refused.
-/

namespace BinaryLayout

/-- The byte order that a document names: by a string, or by an object whose only member has the
name and the value null. -/
def ByteOrder.ofJson? : Json → Option ByteOrder
  | .string (some name) => ofName? name
  | .object [(some name, .null)] => ofName? name
  | _ => none

namespace Dialect

/-- The names of the members, in order. -/
def memberNames : List String :=
  ["endian", "short_size", "int_size", "long_size", "integer_size", "size_size"]

/-- The document of a dialect. -/
def toJson (dialect : Dialect) : Json :=
  .record (memberNames.zip
    [.text dialect.order.name, .nat dialect.short, .nat dialect.int, .nat dialect.long,
      .nat dialect.script, .nat dialect.size])

/-- The compact JSON text of a dialect. -/
def json (dialect : Dialect) : String := dialect.toJson.compact

/-- The value of a member given by `documents`: the usual one if there is none, and none at all if
the member is given twice or its document does not denote a value. -/
def memberOr {α : Type} (usual : α) (read : Json → Option α) : List Json → Option α
  | [] => some usual
  | [document] => read document
  | _ => none

/-- The dialect whose members are given by the documents found for each. -/
def ofMembers? (order short int long script size : List Json) : Option Dialect := do
  let usual : Dialect := default
  return {
    order := ← memberOr usual.order ByteOrder.ofJson? order
    short := ← memberOr usual.short Json.extent? short
    int := ← memberOr usual.int Json.extent? int
    long := ← memberOr usual.long Json.extent? long
    script := ← memberOr usual.script Json.extent? script
    size := ← memberOr usual.size Json.extent? size }

/-- The dialect that a document denotes. -/
def ofJson? : Json → Option Dialect
  | .object members =>
    if members.all fun (name, _) => name.isSome then
      ofMembers? (Json.valuesOf "endian" members) (Json.valuesOf "short_size" members)
        (Json.valuesOf "int_size" members) (Json.valuesOf "long_size" members)
        (Json.valuesOf "integer_size" members) (Json.valuesOf "size_size" members)
    else none
  | .array items =>
    if items.length ≤ memberNames.length then
      let item := fun n => items[n]?.toList
      ofMembers? (item 0) (item 1) (item 2) (item 3) (item 4) (item 5)
    else none
  | _ => none

/-- The dialect that a JSON text denotes. -/
def parse (text : String) : Option Dialect := (Json.parse text).bind ofJson?

end Dialect

end BinaryLayout
