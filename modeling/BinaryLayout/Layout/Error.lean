import BinaryLayout.Text.Quoted

/-!
# Why a layout cannot be built

`BuildError` holds the causes for which a format string, a description or a list of members gives
no layout. Layouts enter it by their signatures.
-/

namespace BinaryLayout

/-- What it is that reaches beyond the addressable bits. -/
inductive Oversize where
  /-- The position `size` bits after `start`. -/
  | position (start size : Nat)
  /-- An array of `count` elements. -/
  | array (count : Nat) (element : String)
  /-- A group of `length` members. -/
  | group (length : Nat)
  deriving DecidableEq, Repr

/-- A cause for which no layout is built. -/
inductive BuildError where
  /-- The character at a position of a format string starts no token. -/
  | unknownToken (token : Char) (position : Nat)
  /-- The letter of a format string does not take this size. -/
  | badSize (token : Char) (size : Nat)
  /-- The format string has no field. -/
  | noFields
  /-- Two members of one record have this name. -/
  | duplicateName (name : String)
  /-- A layout that is not bit packed would start inside a byte. -/
  | misaligned (signature : String) (bitOffset : Nat)
  /-- Only single fields are kept in a catalog. -/
  | notAtomic (signature : String)
  /-- The layout does not fit the addressable bits. -/
  | tooLarge (what : Oversize)
  /-- The entry of a declared record does not have exactly one member. -/
  | badEntry (position : Nat)
  deriving DecidableEq, Repr

/-- How a message names what is too large. -/
def Oversize.describe : Oversize → String
  | .position start size => "bit position " ++ toString start ++ " + " ++ toString size
  | .array count element => "Array[" ++ toString count ++ "] of " ++ element
  | .group length => "Sequence[" ++ toString length ++ "]"

/-- The text shown for a failed build. -/
def BuildError.message : BuildError → String
  | .unknownToken token position =>
    "unknown format token " ++ Text.quotedChar token ++ " at position " ++ toString position
  | .badSize token size =>
    "invalid size " ++ toString size ++ " for format token " ++ Text.quotedChar token
  | .noFields => "format string describes no fields"
  | .duplicateName name => "duplicate struct member " ++ Text.quoted name
  | .misaligned signature bitOffset =>
    signature ++ " must start on a byte boundary, found bit offset " ++ toString bitOffset
  | .notAtomic signature => "composite descriptor " ++ signature ++ " cannot be interned"
  | .tooLarge what =>
    "layout too large: " ++ what.describe ++ " overflows the addressable bit range"
  | .badEntry position =>
    "struct entry " ++ toString position ++ " must contain exactly one name/layout pair"

end BinaryLayout
