import BinaryLayout.Blueprint

/-!
# Declarations

A **declaration** is a blueprint in the form in which it is kept as data. It has no finished
layouts, and the members of its records are entries: maps from names to declarations, in the order
of the names. Only an entry that holds exactly one name becomes a member; the first entry in which
that is not so is reported, by its position, and nothing has been built by then.
-/

namespace BinaryLayout

/-- A layout kept as data. -/
inductive Declaration where
  /-- The fields of a format string. -/
  | format (text : String)
  /-- `count` times the same element. -/
  | array (count : Nat) (element : Declaration)
  /-- Members without names. -/
  | sequence (members : List Declaration)
  /-- Entries that hold the members with their names. -/
  | record (entries : List (List (String × Declaration)))

namespace Declaration

mutual

/-- The blueprint of a declaration. -/
def toBlueprint : Declaration → Except BuildError Blueprint
  | .format text => .ok (.format text)
  | .array count element => do return .array count (← element.toBlueprint)
  | .sequence members => do return .sequence (← membersToBlueprints members)
  | .record entries => do return .record (← entriesToBlueprints entries 0)

/-- The blueprints of members. -/
def membersToBlueprints : List Declaration → Except BuildError (List Blueprint)
  | [] => .ok []
  | member :: members => do
    let blueprint ← member.toBlueprint
    let blueprints ← membersToBlueprints members
    return blueprint :: blueprints

/-- The named blueprints of entries, the first of which stands at `position`. -/
def entriesToBlueprints : List (List (String × Declaration)) → Nat →
    Except BuildError (List (String × Blueprint))
  | [], _ => .ok []
  | entry :: entries, position => do
    let member ← entryToBlueprint entry position
    let members ← entriesToBlueprints entries (position + 1)
    return member :: members

/-- The named blueprint of the entry at `position`. -/
def entryToBlueprint : List (String × Declaration) → Nat →
    Except BuildError (String × Blueprint)
  | [(name, member)], _ => do return (name, ← member.toBlueprint)
  | _, position => .error (.badEntry position)

end

/-- The layout of a declaration. -/
def pack (declaration : Declaration) : Build Layout := do
  let blueprint ← Build.ofExcept declaration.toBlueprint
  blueprint.pack

end Declaration

end BinaryLayout
