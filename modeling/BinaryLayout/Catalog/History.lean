import BinaryLayout.Declaration.Basic

/-!
# Histories of catalogs

A **request** is one use of a catalog, and a history is what a catalog becomes by requests made one
after the other, whether they succeed or fail. A request to keep a layout under a signature of its
caller's choice is **honest** when the layout has that signature; all other requests are.

Layouts are **issued** when they come from catalogs with honest histories, and when the finished
layouts in the blueprints they were built from are issued themselves.
-/

namespace BinaryLayout

/-- A use of a catalog. -/
inductive Request where
  /-- The shared field of a shape and size. -/
  | field (shape : Shape) (size : Nat) (order : ByteOrder) (bit : Nat)
  /-- The shared instance of a field. -/
  | intern (layout : Layout)
  /-- The fields of a format string laid out from `bit` on. -/
  | parse (format : String) (bit : Nat)
  /-- The layout of a blueprint. -/
  | pack (blueprint : Blueprint)
  /-- The layout of a declaration. -/
  | declare (declaration : Declaration)
  /-- The layout under a signature, or else the given one. -/
  | getOrAdd (signature : String) (layout : Layout)

namespace Request

/-- What a request gives: layouts, and for a format string the bits laid out. -/
def run : Request → Build (List Layout × Option Nat)
  | .field shape size order bit => do return ([← Build.field shape size order bit], none)
  | .intern layout => do return ([← Build.intern layout], none)
  | .parse format bit => do
    let (layouts, bit) ← Build.parse format bit
    return (layouts, some bit)
  | .pack blueprint => do return ([← blueprint.pack], none)
  | .declare declaration => do return ([← declaration.pack], none)
  | .getOrAdd signature layout => do
    return ([← Build.getOrAdd signature fun handle => layout.withHandle handle], none)

/-- The layout to be kept has the signature under which it is to be kept. -/
def Honest : Request → Prop
  | .getOrAdd signature layout => layout.signature = signature
  | _ => True

end Request

namespace Catalog

/-- The answer to a request, and the catalog after it. -/
def answer (catalog : Catalog) (request : Request) :
    Except BuildError (List Layout × Option Nat) × Catalog :=
  request.run.run.run catalog

/-- The catalog after requests made one after the other. -/
def after (catalog : Catalog) (requests : List Request) : Catalog :=
  requests.foldl (fun catalog request => (catalog.answer request).2) catalog

/-- The catalog has an honest history. -/
def Reachable (catalog : Catalog) : Prop :=
  ∃ owner dialect requests, (∀ request ∈ requests, Request.Honest request) ∧
    catalog = (empty owner dialect).after requests

end Catalog

namespace Blueprint

mutual

/-- The finished layouts in a blueprint. -/
def finishedIn : Blueprint → List Layout
  | .format _ => []
  | .finished layout => [layout]
  | .array _ element => element.finishedIn
  | .sequence members => finishedInAll members
  | .record members => finishedInNamed members

/-- The finished layouts in some blueprints. -/
def finishedInAll : List Blueprint → List Layout
  | [] => []
  | blueprint :: blueprints => blueprint.finishedIn ++ finishedInAll blueprints

/-- The finished layouts in some named blueprints. -/
def finishedInNamed : List (String × Blueprint) → List Layout
  | [] => []
  | (_, blueprint) :: blueprints => blueprint.finishedIn ++ finishedInNamed blueprints

end

theorem finishedInAll_eq (blueprints : List Blueprint) :
    finishedInAll blueprints = blueprints.flatMap finishedIn := by
  induction blueprints with
  | nil => rfl
  | cons blueprint blueprints ih => rw [finishedInAll, ih, List.flatMap_cons]

theorem finishedInNamed_eq (blueprints : List (String × Blueprint)) :
    finishedInNamed blueprints = (blueprints.map Prod.snd).flatMap finishedIn := by
  induction blueprints with
  | nil => rfl
  | cons blueprint blueprints ih => rw [finishedInNamed, ih, List.map_cons, List.flatMap_cons]

end Blueprint

/-- The layout comes from catalogs with honest histories. -/
inductive Layout.Issued : Layout → Prop
  | field {catalog : Catalog} {shape : Shape} {size : Nat} {order : ByteOrder} {bit : Nat}
      {layout : Layout} (hc : catalog.Reachable)
      (h : ((Build.field shape size order bit).run.run catalog).1 = .ok layout) : Issued layout
  | pack {catalog : Catalog} {blueprint : Blueprint} {layout : Layout} (hc : catalog.Reachable)
      (hb : ∀ finished ∈ blueprint.finishedIn, Issued finished)
      (h : (blueprint.pack.run.run catalog).1 = .ok layout) : Issued layout

end BinaryLayout
