import BinaryLayout.ByteOrder

/-!
# Dialects of format strings

What a format string leaves open is settled by a **dialect**: the byte order in force before the
first order token, and the number of bytes of those integers whose letters name no number. Any
numbers may stand in a dialect; a letter that is given a useless one is refused when it is read.
-/

namespace BinaryLayout

/-- The choices that format strings leave open. -/
structure Dialect where
  /-- The byte order at the start of a format string. -/
  order : ByteOrder := .little
  /-- The bytes of a short integer. -/
  short : Nat := 2
  /-- The bytes of an integer without a written size. -/
  int : Nat := 4
  /-- The bytes of a long integer. -/
  long : Nat := 8
  /-- The bytes of an integer of a script. -/
  script : Nat := 8
  /-- The bytes of a size. -/
  size : Nat := 8
  deriving DecidableEq, Repr

namespace Dialect

instance : Inhabited Dialect := ⟨{}⟩

/-- The usual sizes, least significant byte first. -/
def little : Dialect := default

/-- The usual sizes, most significant byte first. -/
def big : Dialect := { little with order := .big }

/-- The dialect with another byte order. -/
def withOrder (dialect : Dialect) (order : ByteOrder) : Dialect := { dialect with order := order }

end Dialect

end BinaryLayout
