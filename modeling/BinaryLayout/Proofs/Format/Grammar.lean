import BinaryLayout.Format.Grammar
import BinaryLayout.Proofs.Format.Flatten
import BinaryLayout.Proofs.Text.Decimal
import Mathlib.Data.List.Infix
import Mathlib.Data.List.TakeWhile

/-!
# The parser accepts the grammar

Reading goes over a text once and takes as many digits for a letter as there are. What it gives is
what the tokens lay out of which the text consists (`Reads.exists_lays`, `Lays.exists_reads`): every
token ends before a character that is no digit, so that a letter is given the digits of its own
token and no others.

So `Format.parse` accepts the strings of the grammar that have a field and end at a bit that can be
counted, and no others, and gives the fields that they lay out (`parse_eq_ok_iff_lays`).
-/

namespace BinaryLayout.Format

variable {dialect : Dialect} {order : ByteOrder} {start finish size : Nat} {shape : Shape}
  {fields : List Field} {tokens : List Token} {c : Char} {digits rest : List Char}

/-! ### Letters -/

/-- The letters of a dialect are those of the two tables. -/
theorem letter?_eq_some_iff {letter : Letter} : dialect.letter? c = some letter ↔
    letter.sized = false ∧ (c, letter.shape, letter.size) ∈ plainLetters dialect ∨
      letter.sized = true ∧ (c, letter.shape, letter.size) ∈ sizedLetters dialect := by
  obtain ⟨shape, size, sized⟩ := letter
  constructor
  · intro h
    unfold Dialect.letter? at h
    split at h <;> cases h <;> simp [plainLetters, sizedLetters]
  · simp only [plainLetters, sizedLetters, List.mem_cons, List.not_mem_nil, Prod.mk.injEq, or_false]
    rintro (⟨rfl, h⟩ | ⟨rfl, h⟩)
    · rcases h with h | h | h | h | h | h | h | h | h | h <;> obtain ⟨rfl, rfl, rfl⟩ := h <;> rfl
    · rcases h with h | h | h | h <;> obtain ⟨rfl, rfl, rfl⟩ := h <;> rfl

/-- A letter with digits stands for a field exactly when it is one of the dialect, takes the digits,
and the size is the one that they denote or else that of the letter. -/
private theorem denotes_iff : Denotes dialect c digits shape size ↔ ∃ letter,
    dialect.letter? c = some letter ∧ letter.shape = shape ∧
      (digits = [] ∧ letter.size = size ∨
        letter.sized = true ∧ digits ≠ [] ∧ (∀ d ∈ digits, d.isDigit = true) ∧
          Text.decimal digits = size) := by
  simp only [letter?_eq_some_iff]
  constructor
  · rintro (h | h | ⟨h, hne, hd⟩)
    · exact ⟨⟨shape, size, false⟩, .inl ⟨rfl, h⟩, rfl, .inl ⟨rfl, rfl⟩⟩
    · exact ⟨⟨shape, size, true⟩, .inr ⟨rfl, h⟩, rfl, .inl ⟨rfl, rfl⟩⟩
    · exact ⟨⟨shape, _, true⟩, .inr ⟨rfl, h⟩, rfl, .inr ⟨rfl, hne, hd, rfl⟩⟩
  · rintro ⟨letter, h, rfl, hsize⟩
    rcases hsize with ⟨rfl, rfl⟩ | ⟨hsized, hne, hd, rfl⟩
    · rcases h with ⟨-, h⟩ | ⟨-, h⟩
      · exact .plain h
      · exact .unsized h
    · rcases h with ⟨hplain, -⟩ | ⟨-, h⟩
      · rw [hplain] at hsized
        cases hsized
      · exact .sized h hne hd

theorem Denotes.isDigit_eq_false (h : Denotes dialect c digits shape size) : c.isDigit = false := by
  obtain ⟨letter, hc, -, -⟩ := denotes_iff.mp h
  refine Bool.eq_false_iff.mpr fun hdigit => ?_
  rw [letter?_digit hdigit] at hc
  cases hc

/-! ### Digits -/

theorem sizeOf_eq_ok_iff {letter : Letter} : sizeOf c letter digits = .ok size ↔
    digits = [] ∧ letter.size = size ∨
      digits ≠ [] ∧ Text.decimal digits = size ∧ size ≤ Extent.limit := by
  rw [sizeOf]
  cases digits with
  | nil => simp
  | cons d digits =>
    rw [← Text.extent?_eq_some_iff]
    cases Text.extent? (d :: digits) <;> simp

/-- No size that a kind of field may have is as large as the limit. -/
theorem largest_lt_limit (shape : Shape) : shape.largest < Extent.limit := by
  cases shape with
  | integer signedness => exact (by decide : 8 < Extent.limit)
  | raw | bits => decide

/-- A letter is given the digits of its token, if no other digit comes after them. -/
theorem suffix_eq_digits {letter : Letter} (hr : NoDigitFirst rest)
    (hd : digits = [] ∨ letter.sized = true ∧ ∀ d ∈ digits, d.isDigit = true) :
    suffix letter (digits ++ rest) = digits := by
  rw [suffix_append letter hr, suffix]
  rcases hd with rfl | ⟨hsized, hd⟩
  · exact ite_self _
  · rw [if_pos hsized]
    exact List.takeWhile_eq_self_iff.mpr hd

/-! ### Tokens -/

private theorem text_order (order : ByteOrder) : (Token.order order).text = [order.sign] := by
  cases order <;> rfl

/-- What it takes for a letter to lay out a field, and what is laid out: the same for every kind of
field. -/
private theorem lays_field_iff :
    Lays dialect order start (.field c digits :: tokens) fields finish ↔
    ∃ shape size rest, Denotes dialect c digits shape size ∧ (1 ≤ size ∧ size ≤ shape.largest) ∧
      (shape ≠ .bits → start % 8 = 0) ∧
      Lays dialect order (start + (shape.field size order start).bitSize) tokens rest finish ∧
        fields = shape.field size order start :: rest := by
  have hbits {shape : Shape} {size : Nat} (hs : 1 ≤ size ∧ size ≤ shape.largest) :
      (shape.field size order start).bitSize = (shape.field size order start).exactBitSize :=
    (valid_field hs order start).bitSize_eq
  constructor
  · rintro (_ | _ | @⟨_, _, _, _, rest, _, _, signedness, size, hd, hs, ha, h⟩ |
      @⟨_, _, _, _, rest, _, _, size, hd, hs, ha, h⟩ | @⟨_, _, _, _, rest, _, _, width, hd, hs, h⟩)
    · exact ⟨.integer signedness, size, rest, hd, hs, fun _ => ha, by rwa [hbits hs], rfl⟩
    · exact ⟨.raw, size, rest, hd, hs, fun _ => ha, by rwa [hbits hs], rfl⟩
    · exact ⟨.bits, width, rest, hd, hs, fun hne => absurd rfl hne, h, rfl⟩
  · rintro ⟨shape, size, rest, hd, hs, ha, h, rfl⟩
    rw [hbits hs] at h
    cases shape with
    | integer signedness => exact .integer hd hs (ha nofun) h
    | raw => exact .raw hd hs (ha nofun) h
    | bits => exact .bits hd hs h

private theorem Lays.start_le_finish (h : Lays dialect order start tokens fields finish) :
    start ≤ finish := by
  induction h with
  | nil => exact Nat.le_refl _
  | order h ih => exact ih
  | integer | raw | bits => omega

/-- No token starts with a digit. -/
private theorem Lays.noDigitFirst (h : Lays dialect order start tokens fields finish) :
    NoDigitFirst (tokens.flatMap Token.text) := by
  cases tokens with
  | nil => simp [NoDigitFirst]
  | cons token tokens =>
    cases token with
    | order new =>
      rw [List.flatMap_cons, text_order]
      exact noDigitFirst_sign new _
    | field c digits =>
      obtain ⟨shape, size, rest, hd, -⟩ := lays_field_iff.mp h
      intro first hfirst
      obtain rfl := Option.some.inj hfirst
      exact hd.isDigit_eq_false

/-! ### Texts -/

variable {text : List Char} {cursor last : Cursor}

/-- A text that is read consists of tokens, and they lay out what is read. -/
theorem Reads.exists_lays (h : Reads dialect text cursor fields last) :
    ∃ tokens, text = tokens.flatMap Token.text ∧
      Lays dialect cursor.order cursor.bit tokens fields last.bit := by
  induction h with
  | nil => exact ⟨[], rfl, .nil⟩
  | order new h ih =>
    obtain ⟨tokens, htext, hlays⟩ := ih
    refine ⟨.order new :: tokens, ?_, .order hlays⟩
    rw [List.flatMap_cons, text_order, ← htext]
    rfl
  | @field c rest cursor last fields letter size hc hn hs ha hb h ih =>
    obtain ⟨tokens, htext, hlays⟩ := ih
    have hd : Denotes dialect c (suffix letter rest) letter.shape size := by
      refine denotes_iff.mpr ⟨letter, hc, rfl, ?_⟩
      rcases sizeOf_eq_ok_iff.mp hn with hsize | ⟨hne, hsize, -⟩
      · exact .inl hsize
      · rcases suffix_eq_nil_or letter rest with hnil | ⟨hsized, hdigits⟩
        · exact absurd hnil hne
        · exact .inr ⟨hsized, hne, hdigits, hsize⟩
    refine ⟨.field c (suffix letter rest) :: tokens, ?_,
      lays_field_iff.mpr ⟨letter.shape, size, fields, hd, hs, ha, hlays, rfl⟩⟩
    rw [List.flatMap_cons, ← htext, Token.text, List.cons_append,
      ← List.prefix_append_drop (suffix_isPrefix letter rest)]

/-- A text of tokens is read, and what is read is what they lay out. -/
theorem Lays.exists_reads (h : Lays dialect order start tokens fields finish)
    (hl : finish ≤ Extent.limit) :
    ∃ last, Reads dialect (tokens.flatMap Token.text) ⟨order, start⟩ fields last ∧
      last.bit = finish := by
  induction tokens generalizing order start fields with
  | nil =>
    cases h
    exact ⟨_, .nil, rfl⟩
  | cons token tokens ih =>
    cases token with
    | order new =>
      obtain ⟨last, hreads, hbit⟩ : ∃ last, Reads dialect (tokens.flatMap Token.text)
          ⟨new, start⟩ fields last ∧ last.bit = finish := by
        cases h with
        | order h => exact ih h
      rw [List.flatMap_cons, text_order]
      exact ⟨last, .order new hreads, hbit⟩
    | field c digits =>
      obtain ⟨shape, size, rest, hd, hs, ha, hlays, rfl⟩ := lays_field_iff.mp h
      obtain ⟨last, hreads, hbit⟩ := ih hlays
      obtain ⟨letter, hc, rfl, hsize⟩ := denotes_iff.mp hd
      have hsuffix : suffix letter (digits ++ tokens.flatMap Token.text) = digits := by
        refine suffix_eq_digits hlays.noDigitFirst ?_
        rcases hsize with ⟨hnil, -⟩ | ⟨hsized, -, hdigits, -⟩
        · exact .inl hnil
        · exact .inr ⟨hsized, hdigits⟩
      have hn : sizeOf c letter digits = .ok size := by
        refine sizeOf_eq_ok_iff.mpr ?_
        rcases hsize with hsize | ⟨-, hne, -, hsize⟩
        · exact .inl hsize
        · exact .inr ⟨hne, hsize, hs.2.trans (Nat.le_of_lt (largest_lt_limit _))⟩
      have htext : (Token.field c digits :: tokens).flatMap Token.text =
          c :: (digits ++ tokens.flatMap Token.text) := List.flatMap_cons
      rw [htext]
      refine ⟨last, .field hc (by rwa [hsuffix]) hs ha (hlays.start_le_finish.trans hl) ?_, hbit⟩
      rw [hsuffix, List.drop_left]
      exact hreads

/-- Where the reading of a field ends can be counted. -/
private theorem Reads.finish_le_of_ne_nil (h : Reads dialect text cursor fields last)
    (hne : fields ≠ []) : last.bit ≤ Extent.limit := by
  induction h with
  | nil => exact absurd rfl hne
  | order new h ih => exact ih hne
  | field hc hn hs ha hb h => exact h.finish_le hb

/-- The parser accepts the format strings of the grammar and no others. It succeeds exactly if the
string consists of tokens that lay out at least one field and end at a bit that can be counted, and
it gives the fields that they lay out and the bit at which they end. -/
theorem parse_eq_ok_iff_lays {format : String} {bit : Nat} {parsed : Parsed} :
    parse dialect format bit = .ok parsed ↔ ∃ tokens, format.toList = tokens.flatMap Token.text ∧
      Lays dialect dialect.order bit tokens parsed.fields parsed.bit ∧
        parsed.fields ≠ [] ∧ parsed.bit ≤ Extent.limit := by
  rw [parse_eq_ok_iff]
  constructor
  · rintro ⟨hne, last, hreads, hbit⟩
    obtain ⟨tokens, htext, hlays⟩ := hreads.exists_lays
    rw [← hbit] at hlays
    exact ⟨tokens, htext, hlays, hne, hbit ▸ hreads.finish_le_of_ne_nil hne⟩
  · rintro ⟨tokens, htext, hlays, hne, hl⟩
    obtain ⟨last, hreads, hbit⟩ := hlays.exists_reads hl
    exact ⟨hne, last, htext ▸ hreads, hbit.symm⟩

end BinaryLayout.Format
