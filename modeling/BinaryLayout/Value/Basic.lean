import BinaryLayout.Extent
import BinaryLayout.Text.Quoted

/-!
# Values

What a layout reads from bytes, and what can be stored into a field: truth values, signed and
unsigned integers, byte strings, lists, and records, whose members are named and ordered.

A value is looked at through views that give nothing when they do not apply. The two integer views
look through the sign: `signed64?` and `unsigned64?` both accept either kind of integer, as long as
it fits the 64 bits asked for. `describe` is the text by which messages show a value.
-/

namespace BinaryLayout

/-- A value read from a target, or to be stored into one. -/
inductive Value where
  | bool (value : Bool)
  /-- An integer read from a signed field. -/
  | int (value : Int)
  /-- An integer read from an unsigned field or from several bits. -/
  | uint (value : Nat)
  | bytes (value : List UInt8)
  | list (items : List Value)
  /-- Named members in order. -/
  | record (members : List (String × Value))
  deriving Repr

namespace Value

instance : Inhabited Value := ⟨.list []⟩

/-! ### Views -/

/-- The first member called `name`. -/
def get? (name : String) : Value → Option Value
  | .record members => (members.find? fun (n, _) => n == name).map Prod.snd
  | _ => none

/-- The truth value. -/
def bool? : Value → Option Bool
  | .bool b => some b
  | _ => none

/-- The integer, if it fits 64 bits with a sign. -/
def signed64? : Value → Option Int
  | .int i => if -0x8000000000000000 ≤ i ∧ i < 0x8000000000000000 then some i else none
  | .uint n => if n < 0x8000000000000000 then some n else none
  | _ => none

/-- The integer, if it fits 64 bits without a sign. -/
def unsigned64? : Value → Option Nat
  | .int i => if 0 ≤ i ∧ i ≤ Extent.limit then some i.toNat else none
  | .uint n => if n ≤ Extent.limit then some n else none
  | _ => none

/-- The byte string. -/
def bytes? : Value → Option (List UInt8)
  | .bytes bs => some bs
  | _ => none

/-- The items of a list. -/
def list? : Value → Option (List Value)
  | .list items => some items
  | _ => none

/-! ### Text -/

/-- Parts separated by commas, between brackets. -/
def bracketed (parts : List String) : String := "[" ++ ", ".intercalate parts ++ "]"

mutual

/-- The kind of the value and its content. -/
def describe : Value → String
  | .bool b => "Bool(" ++ (if b then "true" else "false") ++ ")"
  | .int i => "Int(" ++ toString i ++ ")"
  | .uint n => "UInt(" ++ toString n ++ ")"
  | .bytes bs => "Bytes(" ++ bracketed (bs.map fun b => toString b.toNat) ++ ")"
  | .list items => "List(" ++ bracketed (describeItems items) ++ ")"
  | .record members => "Struct(" ++ bracketed (describeMembers members) ++ ")"

/-- The items, one by one. -/
def describeItems : List Value → List String
  | [] => []
  | item :: items => item.describe :: describeItems items

/-- The members, one by one, each as a pair of its name and its value. -/
def describeMembers : List (String × Value) → List String
  | [] => []
  | (name, value) :: members =>
    ("(" ++ Text.quoted name ++ ", " ++ value.describe ++ ")") :: describeMembers members

end

end Value

end BinaryLayout
