import BinaryLayout.Format.Letter
import BinaryLayout.Text.Digits

/-!
# The grammar of format strings

A format string is a list of **tokens** written one after the other: signs for a byte order, and
letters, some of them with digits behind them. No token starts with a digit, so the digits behind a
letter are all that follow it.

Two tables say which letters there are, what kind of field each introduces and of which size
(`plainLetters`, `sizedLetters`). Behind a letter of the second table may stand digits, which then
give the size: they are read as one decimal number, however large it is and however many zeros it
starts with.

`Lays` says which fields tokens lay out. A field stands where those before it end, integers and raw
fields on byte boundaries, and an integer has the byte order of the last sign before it. The grammar
says nothing of how a format string is read, nor of a limit for the place where the fields end.
-/

namespace BinaryLayout.Format

/-- A token of a format string. -/
inductive Token where
  /-- A sign that puts a byte order in force. -/
  | order (order : ByteOrder)
  /-- A letter with the digits behind it. -/
  | field (letter : Char) (digits : List Char)
  deriving DecidableEq, Repr

/-- A token as it is written. -/
def Token.text : Token → List Char
  | .order .little => ['<']
  | .order .big => ['>']
  | .field letter digits => letter :: digits

/-- The letters behind which no digits stand, each with the kind and the size of its field. -/
def plainLetters (dialect : Dialect) : List (Char × Shape × Nat) :=
  [('b', .integer .signed, 1), ('B', .integer .unsigned, 1),
    ('h', .integer .signed, dialect.short), ('H', .integer .unsigned, dialect.short),
    ('l', .integer .signed, dialect.long), ('L', .integer .unsigned, dialect.long),
    ('j', .integer .signed, dialect.script), ('J', .integer .unsigned, dialect.script),
    ('T', .integer .unsigned, dialect.size), ('r', .bits, 1)]

/-- The letters behind which digits may stand, each with the kind of its field and the size that
the field has without digits. -/
def sizedLetters (dialect : Dialect) : List (Char × Shape × Nat) :=
  [('i', .integer .signed, dialect.int), ('I', .integer .unsigned, dialect.int),
    ('c', .raw, 1), ('R', .bits, 1)]

/-- The letter and the digits behind it stand for a field of the kind and the size. -/
inductive Denotes (dialect : Dialect) : Char → List Char → Shape → Nat → Prop
  | plain {letter : Char} {shape : Shape} {size : Nat}
      (h : (letter, shape, size) ∈ plainLetters dialect) : Denotes dialect letter [] shape size
  | unsized {letter : Char} {shape : Shape} {size : Nat}
      (h : (letter, shape, size) ∈ sizedLetters dialect) : Denotes dialect letter [] shape size
  | sized {letter : Char} {digits : List Char} {shape : Shape} {size : Nat}
      (h : (letter, shape, size) ∈ sizedLetters dialect) (hne : digits ≠ [])
      (hd : ∀ d ∈ digits, d.isDigit = true) :
      Denotes dialect letter digits shape (Text.decimal digits)

/-- With `order` in force, the tokens lay out the fields from bit `start` to bit `finish`. -/
inductive Lays (dialect : Dialect) : ByteOrder → Nat → List Token → List Field → Nat → Prop
  | nil {order : ByteOrder} {start : Nat} : Lays dialect order start [] [] start
  | order {order new : ByteOrder} {start finish : Nat} {tokens : List Token} {fields : List Field}
      (h : Lays dialect new start tokens fields finish) :
      Lays dialect order start (.order new :: tokens) fields finish
  | integer {order : ByteOrder} {start finish : Nat} {tokens : List Token} {fields : List Field}
      {letter : Char} {digits : List Char} {signedness : Signedness} {size : Nat}
      (hd : Denotes dialect letter digits (.integer signedness) size)
      (hs : 1 ≤ size ∧ size ≤ 8) (ha : start % 8 = 0)
      (h : Lays dialect order (start + 8 * size) tokens fields finish) :
      Lays dialect order start (.field letter digits :: tokens)
        (.integer signedness size order :: fields) finish
  | raw {order : ByteOrder} {start finish : Nat} {tokens : List Token} {fields : List Field}
      {letter : Char} {digits : List Char} {size : Nat}
      (hd : Denotes dialect letter digits .raw size)
      (hs : 1 ≤ size ∧ size ≤ Extent.limit / 8) (ha : start % 8 = 0)
      (h : Lays dialect order (start + 8 * size) tokens fields finish) :
      Lays dialect order start (.field letter digits :: tokens) (.raw size :: fields) finish
  | bits {order : ByteOrder} {start finish : Nat} {tokens : List Token} {fields : List Field}
      {letter : Char} {digits : List Char} {width : Nat}
      (hd : Denotes dialect letter digits .bits width) (hs : 1 ≤ width ∧ width ≤ 64)
      (h : Lays dialect order (start + width) tokens fields finish) :
      Lays dialect order start (.field letter digits :: tokens)
        (.bits width (start % 8) :: fields) finish

end BinaryLayout.Format
