import BinaryLayout.Format.Basic

/-!
# Format strings as bytes

A format string is kept as bytes, and it can be read byte after byte, where each byte is taken for
the character of its number. All tokens are characters of one byte, so only the failure at a byte
that starts no token has to look at characters again: the string is cut at the byte, and the failure
names the character that stands there. A string can only be cut between characters. `parseBytes` has
no outcome if it is cut inside of one.
-/

namespace BinaryLayout.Format

/-- The bytes of a format string, each taken for a character. -/
def byteChars (format : String) : List Char := format.toUTF8.data.toList.map Char.ofUInt8

/-- The text from a byte position on, unless the position is inside of a character or past the
end. -/
def cut? : List Char → Nat → Option (List Char)
  | text, 0 => some text
  | [], _ + 1 => none
  | c :: text, n + 1 => if c.utf8Size ≤ n + 1 then cut? text (n + 1 - c.utf8Size) else none

/-- The failure with the character of the text where it says that a token is unknown. There is none
if the text cannot be cut there. -/
def nameToken (text : List Char) : BuildError → Option BuildError
  | .unknownToken byte position => do
    let rest ← cut? text position
    return .unknownToken (rest.head?.getD byte) position
  | failure => some failure

/-- The fields of a whole format string laid out from `bit` on, read byte after byte. There is no
outcome if the string is cut inside of a character. -/
def parseBytes (dialect : Dialect) (format : String) (bit : Nat) :
    Option (Except BuildError Parsed) :=
  let run := run dialect (byteChars format) 0 ⟨dialect.order, bit⟩
  match run.failure, run.steps.getLast? with
  | some failure, _ => (nameToken format.toList failure).map .error
  | none, none => some (.error .noFields)
  | none, some last => some (.ok ⟨run.steps.map Step.field, last.cursor.bit⟩)

end BinaryLayout.Format
