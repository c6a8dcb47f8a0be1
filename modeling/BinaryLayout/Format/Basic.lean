import BinaryLayout.Format.Letter
import BinaryLayout.Layout.Error
import BinaryLayout.Text.Digits

/-!
# Format strings

A format string lists fields that lie one after the other. A token is a letter, with decimal
digits after it where the letter takes them, or one of the signs `<` and `>`, which put little and
big byte order in force for the letters after them.

* `Format.next?` reads the next field. Where it stands is a byte position in the text and a
  `Cursor`: the byte order in force and the bits laid out so far.
* `Format.run` reads field after field and keeps the steps it took before it ended or failed.
* `Format.parse` wants the whole text to be read and to have a field.

Digits may be many. A number that is no extent is refused as if it were the limit, which no letter
takes.
-/

namespace BinaryLayout

/-- What is carried from one field of a format string to the next. -/
structure Cursor where
  /-- The byte order in force. -/
  order : ByteOrder
  /-- The bits laid out so far. -/
  bit : Nat
  deriving DecidableEq, Repr

/-- The position `size` bits after `start`. -/
def advance (start size : Nat) : Except BuildError Nat :=
  match Extent.add? start size with
  | some next => .ok next
  | none => .error (.tooLarge (.position start size))

namespace Format

/-- A field that has been read, and where reading stands after it. -/
structure Step where
  /-- The field. -/
  field : Field
  /-- The byte position after the token. -/
  position : Nat
  /-- The byte order in force and the bits laid out after the field. -/
  cursor : Cursor
  /-- The text after the token. -/
  rest : List Char
  deriving DecidableEq, Repr

/-- The digits that belong to a letter. -/
def suffix (letter : Letter) (rest : List Char) : List Char :=
  if letter.sized then Text.digits rest else []

/-- The size of a letter with the given digits after it. -/
def sizeOf (c : Char) (letter : Letter) (digits : List Char) : Except BuildError Nat :=
  if digits.isEmpty then .ok letter.size
  else
    match Text.extent? digits with
    | some size => .ok size
    | none => .error (.badSize c Extent.limit)

/-- The size, if a field of the shape can have it. The letter is for the message. -/
def checkSize (c : Char) (shape : Shape) (size : Nat) : Except BuildError Unit :=
  if 1 ≤ size ∧ size ≤ shape.largest then .ok () else .error (.badSize c size)

/-- A field may start at a bit. -/
def checkAligned (field : Field) (bit : Nat) : Except BuildError Unit :=
  if field.isBitPacked = false ∧ bit % 8 ≠ 0 then
    .error (.misaligned field.signature (bit % 8))
  else .ok ()

/-- The field introduced by the letter `c` at `position`, which is followed by `rest`. -/
def readField (dialect : Dialect) (c : Char) (rest : List Char) (position : Nat)
    (cursor : Cursor) : Except BuildError Step := do
  match dialect.letter? c with
  | none => .error (.unknownToken c position)
  | some letter =>
    let digits := suffix letter rest
    let size ← sizeOf c letter digits
    checkSize c letter.shape size
    let field := letter.shape.field size cursor.order cursor.bit
    checkAligned field cursor.bit
    let bit ← advance cursor.bit field.bitSize
    return {
      field := field
      position := position + 1 + digits.length
      cursor := ⟨cursor.order, bit⟩
      rest := rest.drop digits.length }

/-- The next field of a text, if there is one. -/
def next? (dialect : Dialect) : List Char → Nat → Cursor → Except BuildError (Option Step)
  | [], _, _ => .ok none
  | c :: rest, position, cursor =>
    if c = '<' then next? dialect rest (position + 1) { cursor with order := .little }
    else if c = '>' then next? dialect rest (position + 1) { cursor with order := .big }
    else (readField dialect c rest position cursor).map some

/-! ### Progress -/

theorem length_rest_readField {dialect : Dialect} {c : Char} {rest : List Char} {position : Nat}
    {cursor : Cursor} {step : Step}
    (h : readField dialect c rest position cursor = .ok step) :
    step.rest.length ≤ rest.length := by
  unfold readField at h
  split at h
  · simp at h
  · simp only [bind, Except.bind] at h
    repeat (split at h; · simp at h)
    simp only [pure, Except.pure, Except.ok.injEq] at h
    subst h
    simp

/-- Reading a field uses up some of the text. -/
theorem length_rest_lt {dialect : Dialect} {cs : List Char} {position : Nat} {cursor : Cursor}
    {step : Step} (h : next? dialect cs position cursor = .ok (some step)) :
    step.rest.length < cs.length := by
  induction cs generalizing position cursor with
  | nil => simp [next?] at h
  | cons c rest ih =>
    unfold next? at h
    split at h
    · exact Nat.lt_succ_of_lt (ih h)
    · split at h
      · exact Nat.lt_succ_of_lt (ih h)
      · cases hr : readField dialect c rest position cursor with
        | error e => rw [hr] at h; simp [Except.map] at h
        | ok s =>
          rw [hr] at h
          simp only [Except.map, Except.ok.injEq, Option.some.injEq] at h
          subst h
          exact Nat.lt_succ_of_le (length_rest_readField hr)

/-! ### Whole texts -/

/-- The steps of reading field after field, and the failure that ended them if it was one. -/
structure Run where
  /-- The steps that succeeded, in order. -/
  steps : List Step
  /-- The cause for which there were no more steps, unless the text had ended. -/
  failure : Option BuildError
  deriving DecidableEq, Repr

/-- Field after field, from a position and a cursor on. -/
def run (dialect : Dialect) (cs : List Char) (position : Nat) (cursor : Cursor) : Run :=
  match _h : next? dialect cs position cursor with
  | .error failure => ⟨[], some failure⟩
  | .ok none => ⟨[], none⟩
  | .ok (some step) =>
    let rest := run dialect step.rest step.position step.cursor
    ⟨step :: rest.steps, rest.failure⟩
termination_by cs.length
decreasing_by exact length_rest_lt _h

/-- The text from a byte position on. The position is that of a character or past the end. -/
def fromByte : List Char → Nat → List Char
  | cs, 0 => cs
  | [], _ => []
  | c :: cs, n => fromByte cs (n - c.utf8Size)

/-- The fields of a format string, and the bits laid out at its end. -/
structure Parsed where
  fields : List Field
  bit : Nat
  deriving DecidableEq, Repr

/-- The bit of a byte at which the fields end. -/
def Parsed.bitOffset (parsed : Parsed) : Nat := parsed.bit % 8

/-- The fields end on a byte boundary. -/
def Parsed.isAligned (parsed : Parsed) : Bool := parsed.bitOffset == 0

/-- The fields of a whole format string laid out from `bit` on. -/
def parse (dialect : Dialect) (format : String) (bit : Nat) : Except BuildError Parsed :=
  let run := run dialect format.toList 0 ⟨dialect.order, bit⟩
  match run.failure, run.steps.getLast? with
  | some failure, _ => .error failure
  | none, none => .error .noFields
  | none, some last => .ok ⟨run.steps.map Step.field, last.cursor.bit⟩

end Format

end BinaryLayout
