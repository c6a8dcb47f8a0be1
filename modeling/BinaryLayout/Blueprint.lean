import BinaryLayout.Catalog.Basic

/-!
# Blueprints

A **blueprint** is a layout as it is written down, before its fields have places: format strings
and finished layouts, with arrays, sequences and records around them. `Blueprint.build` resolves it
in a catalog.

All parts of one blueprint share a running bit position. A bit field that stands in a member of its
own thus continues where the member before it stopped, and a finished bit field that was made for
another bit of a byte is replaced by one for the bit at which it comes to lie.
-/

namespace BinaryLayout

/-- A layout as it is written down. -/
inductive Blueprint where
  /-- The fields of a format string: a single one by itself, several as a sequence. -/
  | format (text : String)
  /-- A finished layout. -/
  | finished (layout : Layout)
  /-- `count` times the same element. -/
  | array (count : Nat) (element : Blueprint)
  /-- Members without names. -/
  | sequence (members : List Blueprint)
  /-- Members with names. -/
  | record (members : List (String × Blueprint))

/-- Induction over the tree of a blueprint: what holds of format strings and of finished layouts,
and of arrays, sequences and records if it holds of what is in them, holds of all blueprints. -/
@[elab_as_elim]
theorem Blueprint.induction_members {motive : Blueprint → Prop} (blueprint : Blueprint)
    (format : ∀ text, motive (.format text)) (finished : ∀ layout, motive (.finished layout))
    (array : ∀ count element, motive element → motive (.array count element))
    (sequence : ∀ members, (∀ member ∈ members, motive member) → motive (.sequence members))
    (record : ∀ members, (∀ member ∈ members.map Prod.snd, motive member) →
      motive (.record members)) : motive blueprint :=
  @Blueprint.rec motive (fun members => ∀ member ∈ members, motive member)
    (fun members => ∀ member ∈ members.map Prod.snd, motive member) (fun member => motive member.2)
    format finished array sequence record nofun
    (fun _ _ hmember hmembers => List.forall_mem_cons.mpr ⟨hmember, hmembers⟩) nofun
    (fun _ _ hmember hmembers => List.forall_mem_cons.mpr ⟨hmember, hmembers⟩)
    (fun _ _ hmember => hmember) blueprint

namespace Build

/-- A composite made by `make` for a new handle. -/
def share (make : Handle → Except BuildError Layout) : Build Layout := do
  let handle ← issue
  ofExcept (make handle)

/-- The layout of a format string that starts at `bit`. -/
def format (text : String) (bit : Nat) : Build Layout := do
  let (layouts, _) ← parse text bit
  match layouts with
  | [layout] => return layout
  | layouts => share fun handle => Layout.sequenceOf handle layouts

/-- A finished layout placed at `bit`. -/
def place (layout : Layout) (bit : Nat) : Build Layout :=
  match layout.field? with
  | some (.bits width offset) => if offset = bit % 8 then return layout else bits width bit
  | _ => return layout

end Build

namespace Blueprint

mutual

/-- The layout of a blueprint whose first bit is the bit `bit` of the whole. -/
def build : Blueprint → Nat → Build Layout
  | .format text, bit => Build.format text bit
  | .finished layout, bit => Build.place layout bit
  | .array count element, bit => do
    let element ← element.build bit
    Build.share fun handle => Layout.arrayOf handle element count
  | .sequence members, bit => do
    let layouts ← buildMembers members bit
    Build.share fun handle => Layout.sequenceOf handle layouts
  | .record members, bit => do
    Build.ofExcept (Layout.checkNames (members.map Prod.fst))
    let layouts ← buildNamedMembers members bit
    Build.share fun handle => Layout.recordOf handle layouts

/-- The layouts of members, each starting where the one before it ends. -/
def buildMembers : List Blueprint → Nat → Build (List Layout)
  | [], _ => return []
  | member :: members, bit => do
    let layout ← member.build bit
    let next ← Build.ofExcept (advance bit layout.bitSize)
    let layouts ← buildMembers members next
    return layout :: layouts

/-- The layouts of named members, each starting where the one before it ends. -/
def buildNamedMembers : List (String × Blueprint) → Nat → Build (List (String × Layout))
  | [], _ => return []
  | (name, member) :: members, bit => do
    let layout ← member.build bit
    let next ← Build.ofExcept (advance bit layout.bitSize)
    let layouts ← buildNamedMembers members next
    return (name, layout) :: layouts

end

/-- The layout of a blueprint. -/
def pack (blueprint : Blueprint) : Build Layout := blueprint.build 0

end Blueprint

end BinaryLayout
