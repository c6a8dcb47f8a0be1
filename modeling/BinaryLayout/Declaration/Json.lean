import BinaryLayout.Declaration.Basic
import BinaryLayout.Json.Reader
import BinaryLayout.Json.Writer

/-!
# Declarations as JSON

A format string is written as a string, an array as an object with the members `count` and
`element`, a sequence as an object with the member `sequence`, and a record as the array of its
entries, each an object.

An object is read as an array if it can be, and as a sequence otherwise; members of other names are
passed over, but a member that counts may not be given twice. The names of an entry are put in
order, and of a name given twice the last declaration holds, though all of them have to be
readable.
-/

namespace BinaryLayout.Declaration

/-! ### Entries -/

/-- The declaration under a name set in an entry, whose names stay in increasing order. -/
def setEntry (name : String) (member : Declaration) :
    List (String × Declaration) → List (String × Declaration)
  | [] => [(name, member)]
  | (other, old) :: rest =>
    if name < other then (name, member) :: (other, old) :: rest
    else if name = other then (name, member) :: rest
    else (other, old) :: setEntry name member rest

/-- The entry that holds the given members, the last of each name. -/
def entryOfList (members : List (String × Declaration)) : List (String × Declaration) :=
  members.foldl (fun entry (name, member) => setEntry name member entry) []

/-! ### Reading -/

/-- The single element of a list that has one element. -/
def single? {α : Type} : List α → Option α
  | [a] => some a
  | _ => none

mutual

/-- The declaration that a document denotes. -/
def ofJson? : Json → Option Declaration
  | .string (some text) => some (.format text)
  | .object members =>
    match single? (Json.valuesOf "count" members), single? (elementsOf members) with
    | some count, some (some element) =>
      match count.extent? with
      | some count => some (.array count element)
      | none => (single? (sequencesOf members)).join.map .sequence
    | _, _ => (single? (sequencesOf members)).join.map .sequence
  | .array entries => (entriesOf entries).map .record
  | _ => none

/-- What the members called `element` denote. -/
def elementsOf : List (Option String × Json) → List (Option Declaration)
  | [] => []
  | (name, value) :: members =>
    if name = some "element" then ofJson? value :: elementsOf members else elementsOf members

/-- What the members called `sequence` denote. -/
def sequencesOf : List (Option String × Json) → List (Option (List Declaration))
  | [] => []
  | (name, value) :: members =>
    if name = some "sequence" then itemsOf value :: sequencesOf members else sequencesOf members

/-- The declarations that the items of an array denote. -/
def itemsOf : Json → Option (List Declaration)
  | .array items => listOf items
  | _ => none

/-- The declarations that documents denote. -/
def listOf : List Json → Option (List Declaration)
  | [] => some []
  | item :: items =>
    match ofJson? item, listOf items with
    | some member, some members => some (member :: members)
    | _, _ => none

/-- The entries that documents denote. -/
def entriesOf : List Json → Option (List (List (String × Declaration)))
  | [] => some []
  | entry :: entries =>
    match entryOf entry, entriesOf entries with
    | some entry, some entries => some (entry :: entries)
    | _, _ => none

/-- The entry that an object denotes. -/
def entryOf : Json → Option (List (String × Declaration))
  | .object members => (pairsOf members).map entryOfList
  | _ => none

/-- The names and declarations that members denote. -/
def pairsOf : List (Option String × Json) → Option (List (String × Declaration))
  | [] => some []
  | (some name, value) :: members =>
    match ofJson? value, pairsOf members with
    | some member, some members => some ((name, member) :: members)
    | _, _ => none
  | (none, _) :: _ => none

end

/-- The declaration that a JSON text denotes. -/
def parse (text : String) : Option Declaration := do
  let document ← Json.parse text
  if document.isPlain then ofJson? document else none

/-! ### Writing -/

mutual

/-- The document of a declaration. -/
def toJson : Declaration → Json
  | .format text => .text text
  | .array count element => .record [("count", .nat count), ("element", element.toJson)]
  | .sequence members => .record [("sequence", .array (membersToJson members))]
  | .record entries => .array (entriesToJson entries)

/-- The documents of members. -/
def membersToJson : List Declaration → List Json
  | [] => []
  | member :: members => member.toJson :: membersToJson members

/-- The documents of entries. -/
def entriesToJson : List (List (String × Declaration)) → List Json
  | [] => []
  | entry :: entries => .object (entryToJson entry) :: entriesToJson entries

/-- The members of the document of an entry. -/
def entryToJson : List (String × Declaration) → List (Option String × Json)
  | [] => []
  | (name, member) :: entry => (some name, member.toJson) :: entryToJson entry

end

/-- The compact JSON text of a declaration. -/
def json (declaration : Declaration) : String := declaration.toJson.compact

end BinaryLayout.Declaration
