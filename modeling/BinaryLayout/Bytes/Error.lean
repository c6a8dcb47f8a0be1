import BinaryLayout.Value.Basic

/-!
# Why an access fails

`AccessError` holds the causes for which reading bytes, bits or members fails, and `StoreError`
those for which storing a value fails. A failed access on the way to a store becomes a failed store
by `AccessError.toStoreError`: a range that leaves the target is then a target too short, and
asking a field for members is storing into something that is no field.
-/

namespace BinaryLayout

/-- A cause for which nothing is read. -/
inductive AccessError where
  /-- Members were asked of a single field. -/
  | notIndexable (signature : String)
  /-- The bytes `[offset, offset + length)` are not all in the target. -/
  | outOfRange (offset length available : Nat)
  /-- The target ends before the bytes needed. -/
  | tooShort (needed available : Nat)
  /-- No integer has this many bytes, or no bit field this many bits. -/
  | badWidth (width : Nat)
  /-- No byte has this bit. -/
  | badBitOffset (offset : Nat)
  deriving DecidableEq, Repr

/-- A cause for which nothing is stored. -/
inductive StoreError where
  /-- Only single fields can be stored into. -/
  | notImplemented (signature : String)
  /-- The value is not one that the field can hold. -/
  | mismatch (expected : String) (found : Value)
  /-- The target ends before the bytes needed. -/
  | tooShort (needed available : Nat)
  /-- No integer has this many bytes, or no bit field this many bits. -/
  | badWidth (width : Nat)
  /-- No byte has this bit. -/
  | badBitOffset (offset : Nat)
  deriving Repr

namespace AccessError

/-- The text shown for a failed access. -/
def message : AccessError → String
  | .notIndexable signature => "cannot index atomic type " ++ signature
  | .outOfRange offset length available =>
    "range " ++ toString offset ++ "+" ++ toString length ++ " exceeds buffer of " ++
      toString available ++ " bytes"
  | .tooShort needed available =>
    "buffer too short: need " ++ toString needed ++ " bytes, have " ++ toString available
  | .badWidth width => "invalid field width " ++ toString width
  | .badBitOffset offset => "invalid bit offset " ++ toString offset

/-- The failure of a store whose preparation failed. -/
def toStoreError : AccessError → StoreError
  | .notIndexable signature => .notImplemented signature
  | .outOfRange offset length available => .tooShort (Extent.satAdd offset length) available
  | .tooShort needed available => .tooShort needed available
  | .badWidth width => .badWidth width
  | .badBitOffset offset => .badBitOffset offset

end AccessError

namespace StoreError

/-- The text shown for a failed store. -/
def message : StoreError → String
  | .notImplemented signature => "writing composite type " ++ signature ++ " is not implemented"
  | .mismatch expected found => "value " ++ found.describe ++ " does not fit " ++ expected
  | .tooShort needed available =>
    "buffer too short: need " ++ toString needed ++ " bytes, have " ++ toString available
  | .badWidth width => "invalid field width " ++ toString width
  | .badBitOffset offset => "invalid bit offset " ++ toString offset

end StoreError

end BinaryLayout
