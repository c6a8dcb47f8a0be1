import BinaryLayout.Json.Number

/-!
# JSON documents

A document is kept as a tree in which nothing is resolved: numbers as they were written, members
in order, repeated names included. A string is kept as the text it denotes; it denotes none when
its escapes leave one half of a surrogate pair alone, which the grammar allows.

A tree is **plain** when every string in it denotes a text, every number is finite, and arrays and
objects are nested at most `maxDepth` deep. Readers that use a whole tree ask for that; readers
that skip parts of it do not.
-/

namespace BinaryLayout

/-- A JSON document. -/
inductive Json where
  | null
  | bool (value : Bool)
  | number (literal : Json.Number)
  /-- A string and the text that it denotes. -/
  | string (text : Option String)
  | array (items : List Json)
  /-- Members in the order in which they are written. -/
  | object (members : List (Option String × Json))
  deriving Repr

namespace Json

instance : Inhabited Json := ⟨.null⟩

/-- The string that denotes `text`. -/
def text (text : String) : Json := .string (some text)

/-- The number `n`. -/
def nat (n : Nat) : Json := .number (.ofNat n)

/-- The number `i`. -/
def int (i : Int) : Json := .number (.ofInt i)

/-- The object of the given names and values. -/
def record (members : List (String × Json)) : Json :=
  .object (members.map fun (name, value) => (some name, value))

/-! ### Parts of a document -/

/-- The text of a string. -/
def text? : Json → Option String
  | .string text => text
  | _ => none

/-- The extent that a number denotes. -/
def extent? : Json → Option Nat
  | .number n => n.extent?
  | _ => none

/-- The values of all members called `name`, in order. -/
def valuesOf (name : String) (members : List (Option String × Json)) : List Json :=
  (members.filter fun (n, _) => n == some name).map Prod.snd

/-! ### Plain documents -/

/-- How deep arrays and objects may be nested in a plain document. -/
def maxDepth : Nat := 127

mutual

/-- Arrays and objects are nested at most `depth` deep, every string denotes a text and every
number is finite. -/
def isPlainTo : Json → Nat → Bool
  | .null, _ => true
  | .bool _, _ => true
  | .number n, _ => n.isFinite
  | .string text, _ => text.isSome
  | .array _, 0 => false
  | .array items, depth + 1 => itemsArePlainTo items depth
  | .object _, 0 => false
  | .object members, depth + 1 => membersArePlainTo members depth

/-- Each of the documents is plain to the given depth. -/
def itemsArePlainTo : List Json → Nat → Bool
  | [], _ => true
  | item :: items, depth => item.isPlainTo depth && itemsArePlainTo items depth

/-- Each of the names denotes a text, and each of the values is plain to the given depth. -/
def membersArePlainTo : List (Option String × Json) → Nat → Bool
  | [], _ => true
  | (name, value) :: members, depth =>
    name.isSome && value.isPlainTo depth && membersArePlainTo members depth

end

/-- The document is plain. -/
def isPlain (document : Json) : Bool := document.isPlainTo maxDepth

end Json

end BinaryLayout
