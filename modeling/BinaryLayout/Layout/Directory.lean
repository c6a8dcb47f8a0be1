import BinaryLayout.Layout.Placement

/-!
# Directories of members

The names of a record serve two ends: they are listed in the order of the members, and members are
looked up by them. A **directory** has a table for each: the names, the layouts under them, and the
positions by name. The three are filled side by side in one pass over the members, which ends with
the first name that is in the table of positions already.

`Directory.record` builds a record from the directory of its members. It is `recordOf` in another
order: there the names are looked at first, and positions are found by going through the names.
-/

namespace BinaryLayout.Layout

/-- The members of a record, in three tables. -/
structure Directory where
  /-- The names in the order of the members. -/
  names : List String := []
  /-- The layouts in the order of the members. -/
  layouts : List Layout := []
  /-- The positions of the members, counted from zero, by name. -/
  positions : List (String × Nat) := []

namespace Directory

/-- The position of the member called `name`. -/
def position? (directory : Directory) (name : String) : Option Nat :=
  directory.positions.lookup name

/-- The directory with a member at its end, which stands at `position`. -/
def add (directory : Directory) (name : String) (layout : Layout) (position : Nat) : Directory where
  names := directory.names ++ [name]
  layouts := directory.layouts ++ [layout]
  positions := directory.positions ++ [(name, position)]

/-- The directory with more members, the first of which stands at `position`. -/
def enter (directory : Directory) :
    Nat → List (String × Layout) → Except BuildError Directory
  | _, [] => .ok directory
  | position, (name, layout) :: members =>
    match directory.position? name with
    | some _ => .error (.duplicateName name)
    | none => (directory.add name layout position).enter (position + 1) members

/-- The directory of members. -/
def ofMembers (members : List (String × Layout)) : Except BuildError Directory :=
  enter {} 0 members

/-- The record of members, built from their directory. -/
def record (handle : Handle) (members : List (String × Layout)) : Except BuildError Layout := do
  let directory ← ofMembers members
  groupOf handle (.named directory.names) directory.layouts

end Directory

end BinaryLayout.Layout
