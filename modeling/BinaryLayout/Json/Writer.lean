import BinaryLayout.Json.Basic

/-!
# Writing JSON

The **compact** form of a document has no blanks. In a string the quote and the backslash are
escaped, the characters below the space are escaped by their short form where they have one and by
four lower-case hexadecimal digits otherwise, and every other character stands for itself. A
string that denotes no text is written empty.
-/

namespace BinaryLayout.Json

/-- A character as it stands in a written string. -/
def escapedChar (c : Char) : List Char :=
  if c = '"' then ['\\', '"']
  else if c = '\\' then ['\\', '\\']
  else if c = '\x08' then ['\\', 'b']
  else if c = '\x0c' then ['\\', 'f']
  else if c = '\n' then ['\\', 'n']
  else if c = '\r' then ['\\', 'r']
  else if c = '\t' then ['\\', 't']
  else if c.toNat < 0x20 then
    ['\\', 'u', '0', '0', Nat.digitChar (c.toNat / 16), Nat.digitChar (c.toNat % 16)]
  else [c]

/-- A text between quotes. -/
def writeText (text : String) : List Char :=
  '"' :: text.toList.flatMap escapedChar ++ ['"']

/-- A number literal. -/
def Number.write (n : Number) : List Char :=
  (if n.negative then ['-'] else []) ++ Nat.toDigits 10 n.whole ++
  (if n.fraction.isEmpty then [] else '.' :: n.fraction) ++
  match n.exponent with
  | none => []
  | some e => 'e' :: ((if e < 0 then ['-'] else []) ++ Nat.toDigits 10 e.natAbs)

mutual

/-- The characters of the compact form. -/
def write : Json → List Char
  | .null => ['n', 'u', 'l', 'l']
  | .bool true => ['t', 'r', 'u', 'e']
  | .bool false => ['f', 'a', 'l', 's', 'e']
  | .number n => n.write
  | .string text => writeText (text.getD "")
  | .array [] => ['[', ']']
  | .array (item :: items) => '[' :: item.write ++ writeItems items ++ [']']
  | .object [] => ['\x7b', '\x7d']
  | .object ((name, value) :: members) =>
    '\x7b' :: writeText (name.getD "") ++ ':' :: value.write ++ writeMembers members ++ ['\x7d']

/-- The items after the first, each with the comma before it. -/
def writeItems : List Json → List Char
  | [] => []
  | item :: items => ',' :: item.write ++ writeItems items

/-- The members after the first, each with the comma before it. -/
def writeMembers : List (Option String × Json) → List Char
  | [] => []
  | (name, value) :: members =>
    ',' :: writeText (name.getD "") ++ ':' :: value.write ++ writeMembers members

end

/-- The compact form of a document. -/
def compact (document : Json) : String := String.ofList document.write

end BinaryLayout.Json
