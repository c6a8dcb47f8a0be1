import BinaryLayout.Format.Basic
import BinaryLayout.Layout.Placement

/-!
# Catalogs of shared fields

A **catalog** keeps one shared instance of every field that has been built with it, under the
field's signature. Entries are only ever added. A catalog also issues the handles of the instances
that it makes, and carries the dialect in which it reads format strings.

A `Build` consults and extends a catalog on its way to a result, and may fail; what it added before
it failed stays. `intern` is the way of every field into a catalog: the instance that is there
already, or else a new one.
-/

namespace BinaryLayout

/-- A table of shared fields. -/
structure Catalog where
  /-- The issuer that the handles of the catalog name. -/
  owner : Nat
  /-- The dialect of the format strings. -/
  dialect : Dialect
  /-- The shared fields under their signatures, in the order in which they were added. -/
  entries : List (String × Layout) := []
  /-- The number of handles issued. -/
  issued : Nat := 0

/-- A computation that consults and extends a catalog, and may fail. -/
abbrev Build (α : Type) := ExceptT BuildError (StateM Catalog) α

namespace Catalog

/-- A catalog without entries. -/
def empty (owner : Nat) (dialect : Dialect) : Catalog := { owner := owner, dialect := dialect }

/-- The shared field under a signature. -/
def find? (catalog : Catalog) (signature : String) : Option Layout :=
  catalog.entries.lookup signature

/-- There is a shared field under the signature. -/
def contains (catalog : Catalog) (signature : String) : Bool := (catalog.find? signature).isSome

/-- The number of shared fields. -/
def size (catalog : Catalog) : Nat := catalog.entries.length

/-- There is no shared field. -/
def isEmpty (catalog : Catalog) : Bool := catalog.entries.isEmpty

/-- The next handle, and the catalog that has issued it. -/
def issue (catalog : Catalog) : Handle × Catalog :=
  (⟨catalog.owner, catalog.issued⟩, { catalog with issued := catalog.issued + 1 })

/-- The layout kept under a signature, or else the instance that `make` gives for a new handle,
kept there from now on. -/
def getOrAdd (catalog : Catalog) (signature : String) (make : Handle → Layout) :
    Layout × Catalog :=
  match catalog.find? signature with
  | some found => (found, catalog)
  | none =>
    let (handle, catalog) := catalog.issue
    let shared := make handle
    (shared, { catalog with entries := catalog.entries ++ [(signature, shared)] })

end Catalog

namespace Build

/-- A step that consults no catalog. -/
def ofExcept {α : Type} (result : Except BuildError α) : Build α := ExceptT.mk (pure result)

/-- A handle for a new instance. -/
def issue : Build Handle := modifyGet Catalog.issue

/-- The layout kept under a signature, or else the instance that `make` gives. -/
def getOrAdd (signature : String) (make : Handle → Layout) : Build Layout :=
  modifyGet fun catalog => catalog.getOrAdd signature make

/-- The shared instance of a field. -/
def internField (field : Field) : Build Layout :=
  getOrAdd field.signature fun handle => .atom handle field

/-- The shared instances of fields, one after the other. -/
def internFields : List Field → Build (List Layout)
  | [] => return []
  | field :: fields => do
    let layout ← internField field
    let layouts ← internFields fields
    return layout :: layouts

/-- The shared instance of a layout, which has to be a single field. -/
def intern (layout : Layout) : Build Layout :=
  match layout.field? with
  | some field => internField field
  | none => throw (.notAtomic layout.signature)

/-- The shared instance of the field of a shape and size, where `order` is in force, `bit` bits
from the start. -/
def field (shape : Shape) (size : Nat) (order : ByteOrder) (bit : Nat) : Build Layout := do
  ofExcept (Format.checkSize shape.letter shape size)
  internField (shape.field size order bit)

/-- The shared instance of an integer of `size` bytes. -/
def integer (signedness : Signedness) (size : Nat) (order : ByteOrder) : Build Layout :=
  field (.integer signedness) size order 0

/-- The shared instance of `width` bits, from bit `bitOffset` of a byte on; whole bytes in the
offset do not count. -/
def bits (width bitOffset : Nat) : Build Layout := field .bits width .little bitOffset

/-- The shared instance of a run of `size` bytes. -/
def raw (size : Nat) : Build Layout := field .raw size .little 0

/-- The shared fields of a format string laid out from `bit` on, and the bits laid out at its end.
Nothing is added unless the whole string can be read. -/
def parse (format : String) (bit : Nat) : Build (List Layout × Nat) := do
  let catalog ← get
  let parsed ← ofExcept (Format.parse catalog.dialect format bit)
  let layouts ← internFields parsed.fields
  return (layouts, parsed.bit)

end Build

end BinaryLayout
