import BinaryLayout.Proofs.Format.Reads
import BinaryLayout.Proofs.Layout.Leaves

/-!
# Several format strings read as one

Every format string is read in the byte order of the dialect at first, whatever signs stand in the
strings before it. `flatten` puts the sign of that order before each of several strings and writes
them one after the other; `Lines` says what is read from them. It does not matter whether they are
read together or in two parts (`lines_append_iff`), where a part without strings is read as nothing.

What is read has as many fields as there are letters (`Lines.length`), and the fields lie back to
back, aligned where they come to lie (`Lines.aligned`, `Lines.finish_eq`).
-/

namespace BinaryLayout.Format

variable {dialect : Dialect} {text rest : List Char} {cursor finish : Cursor} {fields : List Field}

/-! ### What a text gives -/

/-- A text gives the same fields whenever it is read, and ends at the same bit. -/
theorem Reads.unique {fields' : List Field} {finish' : Cursor}
    (h : Reads dialect text cursor fields finish)
    (h' : Reads dialect text cursor fields' finish') :
    fields = fields' ∧ finish.bit = finish'.bit := by
  obtain ⟨-, hfields, hbit⟩ := h.run 0
  obtain ⟨-, hfields', hbit'⟩ := h'.run 0
  exact ⟨hfields.symm.trans hfields', hbit.symm.trans hbit'⟩

/-- The fields that are read lie back to back. -/
theorem Reads.finish_eq (h : Reads dialect text cursor fields finish) :
    finish.bit = cursor.bit + Field.totalBits fields := by
  induction h with
  | nil => rfl
  | order new h ih => exact ih
  | field hc hn hs ha hb h ih => rw [ih, Field.totalBits_cons, Nat.add_assoc]

/-- Reading that starts at an extent ends at one. -/
theorem Reads.finish_le (h : Reads dialect text cursor fields finish)
    (hl : cursor.bit ≤ Extent.limit) : finish.bit ≤ Extent.limit := by
  induction h with
  | nil => exact hl
  | order new h ih => exact ih hl
  | field hc hn hs ha hb h ih => exact ih hb

/-- Fields that are not bit packed are read at byte boundaries only. -/
theorem Reads.aligned (h : Reads dialect text cursor fields finish) :
    Layout.Aligned cursor.bit (fields.map (.atom .blank)) := by
  induction h with
  | nil => trivial
  | order new h ih => exact ih
  | @field c rest cursor finish fields letter size hc hn hs ha hb h ih =>
    have hstart : (letter.shape.field size cursor.order cursor.bit).isBitPacked = false →
        cursor.bit % 8 = 0 := by
      intro hp
      refine ha fun hshape => ?_
      rw [hshape] at hp
      cases hp
    exact ⟨hstart, ih⟩

/-! ### Positions of the parser -/

/-- The fields of steps, each with the bit at which reading stood before it. -/
def readAt : Nat → List Step → List (Field × Nat)
  | _, [] => []
  | start, step :: steps => (step.field, start) :: readAt step.cursor.bit steps

/-- The next field ends as many bits after the cursor as it has. -/
private theorem bit_next? {position : Nat} {step : Step}
    (h : next? dialect text position cursor = .ok (some step)) :
    step.cursor.bit = cursor.bit + step.field.bitSize := by
  induction text generalizing position cursor with
  | nil => cases h
  | cons c rest ih =>
    by_cases hsign : ∃ order : ByteOrder, c = order.sign
    · obtain ⟨order, rfl⟩ := hsign
      rw [next?_sign] at h
      have hbit := ih h
      exact hbit
    · rw [next?_of_ne fun order h => hsign ⟨order, h⟩] at h
      obtain ⟨step', hstep, h⟩ := Outcome.map_eq_ok_iff.mp h
      obtain rfl := Option.some.inj h
      obtain ⟨letter, size, -, -, -, -, -, rfl⟩ := readField_eq_ok_iff.mp hstep
      rfl

/-- A run stands before each of its fields where the fields before it end. -/
private theorem readAt_run (text : List Char) (position : Nat) (cursor : Cursor) :
    readAt cursor.bit (run dialect text position cursor).steps =
      Field.placed cursor.bit ((run dialect text position cursor).steps.map Step.field) := by
  fun_induction run dialect text position cursor with
  | case1 => rfl
  | case2 => rfl
  | case3 text position cursor step hnext rest ih =>
    rw [readAt, ih, List.map_cons, Field.placed, bit_next? hnext]

/-! ### Letters -/

/-- The number of letters in a text. -/
def letterCount (dialect : Dialect) (text : List Char) : Nat :=
  text.countP fun c => (dialect.letter? c).isSome

theorem letter?_digit {c : Char} (hc : c.isDigit = true) : dialect.letter? c = none := by
  unfold Dialect.letter?
  split <;> first | rfl | exact absurd hc (by decide)

private theorem letterCount_append (left right : List Char) :
    letterCount dialect (left ++ right) = letterCount dialect left + letterCount dialect right :=
  List.countP_append

/-- The digits after a letter are no letters. -/
private theorem letterCount_drop_suffix (letter : Letter) (rest : List Char) :
    letterCount dialect (rest.drop (suffix letter rest).length) = letterCount dialect rest := by
  have hdigits : letterCount dialect (suffix letter rest) = 0 := by
    refine List.countP_eq_zero.mpr fun c hmem => ?_
    rcases suffix_eq_nil_or letter rest with hnil | ⟨-, hdigits⟩
    · rw [hnil] at hmem
      cases hmem
    · rw [letter?_digit (hdigits c hmem)]
      decide
  conv_rhs =>
    rw [← List.take_append_drop (suffix letter rest).length rest, letterCount_append,
      ← List.prefix_iff_eq_take.mp (suffix_isPrefix letter rest), hdigits, Nat.zero_add]

/-- A text gives a field for each of its letters. -/
theorem Reads.length (h : Reads dialect text cursor fields finish) :
    fields.length = letterCount dialect text := by
  induction h with
  | nil => rfl
  | order new h ih =>
    rw [ih, letterCount, letterCount, List.countP_cons_of_neg (by rw [letter?_sign]; decide)]
  | @field c rest cursor finish fields letter size hc hn hs ha hb h ih =>
    rw [letterCount_drop_suffix] at ih
    rw [List.length_cons, ih, letterCount, letterCount, List.countP_cons_of_pos (by rw [hc]; rfl)]

/-! ### Texts one after the other -/

/-- Format strings one after the other, each behind the sign of the order in which it starts. -/
def flatten (dialect : Dialect) (texts : List String) : List Char :=
  texts.flatMap fun text => dialect.order.sign :: text.toList

/-- Format strings as one, in which each is read as it would be by itself. -/
def flattened (dialect : Dialect) (texts : List String) : String :=
  String.ofList (flatten dialect texts)

/-- Format strings, one after the other from bit `start` on, give the fields and end at bit
`finish`. -/
def Lines (dialect : Dialect) (texts : List String) (start : Nat) (fields : List Field)
    (finish : Nat) : Prop :=
  ∃ cursor, Reads dialect (flatten dialect texts) ⟨dialect.order, start⟩ fields cursor ∧
    cursor.bit = finish

/-- A sign in front of a text is read by putting its order in force. -/
private theorem reads_sign_iff {order : ByteOrder} :
    Reads dialect (order.sign :: rest) cursor fields finish ↔
      Reads dialect rest { cursor with order } fields finish := by
  constructor
  · intro h
    generalize htext : order.sign :: rest = text at h
    cases h with
    | nil => cases htext
    | order new h =>
      obtain ⟨hsign, rfl⟩ := List.cons.inj htext
      obtain rfl : order = new := by
        cases order <;> cases new <;> first | rfl | exact absurd hsign (by decide)
      exact h
    | field hc =>
      rw [← (List.cons.inj htext).1, letter?_sign] at hc
      cases hc
  · intro h
    exact .order order h

private theorem reads_nil_iff :
    Reads dialect [] cursor fields finish ↔ fields = [] ∧ finish = cursor := by
  constructor
  · intro h
    generalize htext : [] = text at h
    cases h with
    | nil => exact ⟨rfl, rfl⟩
    | order | field => cases htext
  · rintro ⟨rfl, rfl⟩
    exact .nil

private theorem flatten_cons (text : String) (texts : List String) :
    flatten dialect (text :: texts) =
      dialect.order.sign :: (text.toList ++ flatten dialect texts) := rfl

variable {texts texts' : List String} {start finish : Nat}

theorem lines_nil_iff : Lines dialect [] start fields finish ↔ fields = [] ∧ finish = start := by
  constructor
  · rintro ⟨cursor, h, rfl⟩
    obtain ⟨hfields, rfl⟩ := reads_nil_iff.mp h
    exact ⟨hfields, rfl⟩
  · rintro ⟨rfl, rfl⟩
    exact ⟨_, .nil, rfl⟩

/-- A single text is read in the order of the dialect. -/
private theorem lines_singleton_iff {text : String} :
    Lines dialect [text] start fields finish ↔
      ∃ cursor, Reads dialect text.toList ⟨dialect.order, start⟩ fields cursor ∧
        cursor.bit = finish := by
  simp only [Lines, flatten, List.flatMap_cons, List.flatMap_nil, List.append_nil, reads_sign_iff]

/-- It does not matter which order is in force before the texts. -/
private theorem exists_reads_iff : (∃ cursor', Reads dialect (flatten dialect texts) cursor fields
    cursor' ∧ cursor'.bit = finish) ↔ Lines dialect texts cursor.bit fields finish := by
  cases texts with
  | nil =>
    rw [lines_nil_iff]
    constructor
    · rintro ⟨cursor', h, rfl⟩
      obtain ⟨hfields, rfl⟩ := reads_nil_iff.mp h
      exact ⟨hfields, rfl⟩
    · rintro ⟨rfl, rfl⟩
      exact ⟨_, .nil, rfl⟩
  | cons text texts => simp only [Lines, flatten_cons, reads_sign_iff]

/-- Texts are read as their first ones and then the others. -/
theorem lines_append_iff : Lines dialect (texts ++ texts') start fields finish ↔
    ∃ middle before after, Lines dialect texts start before middle ∧
      Lines dialect texts' middle after finish ∧ fields = before ++ after := by
  have hdigit : NoDigitFirst (flatten dialect texts') := by
    cases texts' with
    | nil => simp [NoDigitFirst, flatten]
    | cons text texts' => exact noDigitFirst_sign _ _
  have hflatten : flatten dialect (texts ++ texts') =
      flatten dialect texts ++ flatten dialect texts' := List.flatMap_append
  constructor
  · rintro ⟨cursor, h, hbit⟩
    rw [hflatten, reads_append_iff hdigit] at h
    obtain ⟨middle, before, after, hl, hr, hfields⟩ := h
    exact ⟨middle.bit, before, after, ⟨middle, hl, rfl⟩, exists_reads_iff.mp ⟨cursor, hr, hbit⟩,
      hfields⟩
  · rintro ⟨_, before, after, ⟨middle, hl, rfl⟩, hr, rfl⟩
    obtain ⟨cursor, hr, hbit⟩ := exists_reads_iff.mpr hr
    exact ⟨cursor, hflatten ▸ hl.append hdigit hr, hbit⟩

/-! ### What texts give -/

/-- Texts give the same fields whenever they are read, and end at the same bit. -/
theorem Lines.unique {fields' : List Field} {finish' : Nat}
    (h : Lines dialect texts start fields finish)
    (h' : Lines dialect texts start fields' finish') : fields = fields' ∧ finish = finish' := by
  obtain ⟨cursor, h, rfl⟩ := h
  obtain ⟨cursor', h', rfl⟩ := h'
  exact h.unique h'

/-- The fields that texts give lie back to back. -/
theorem Lines.finish_eq (h : Lines dialect texts start fields finish) :
    finish = start + Field.totalBits fields := by
  obtain ⟨cursor, h, rfl⟩ := h
  exact h.finish_eq

theorem Lines.finish_le (h : Lines dialect texts start fields finish)
    (hl : start ≤ Extent.limit) : finish ≤ Extent.limit := by
  obtain ⟨cursor, h, rfl⟩ := h
  exact h.finish_le hl

/-- The fields that texts give are aligned where they come to lie. -/
theorem Lines.aligned (h : Lines dialect texts start fields finish) :
    Layout.Aligned start (fields.map (.atom .blank)) := by
  obtain ⟨cursor, h, rfl⟩ := h
  exact h.aligned

/-- The number of letters in some texts. -/
def lettersIn (dialect : Dialect) (texts : List String) : Nat :=
  (texts.map fun text => letterCount dialect text.toList).sum

/-- Texts give a field for each of their letters. -/
theorem Lines.length (h : Lines dialect texts start fields finish) :
    fields.length = lettersIn dialect texts := by
  obtain ⟨cursor, h, rfl⟩ := h
  rw [h.length, lettersIn]
  clear h
  induction texts with
  | nil => rfl
  | cons text texts ih =>
    rw [flatten_cons, letterCount, List.countP_cons_of_neg (by rw [letter?_sign]; decide),
      ← letterCount, letterCount_append, ih, List.map_cons, List.sum_cons]

/-- A single format string can be parsed exactly when it can be read and has a letter. -/
theorem parse_text_iff {text : String} {parsed : Parsed} :
    parse dialect text start = .ok parsed ↔ 0 < letterCount dialect text.toList ∧
      Lines dialect [text] start parsed.fields parsed.bit := by
  rw [parse_eq_ok_iff, lines_singleton_iff]
  constructor
  · rintro ⟨hne, cursor, h, hbit⟩
    exact ⟨h.length ▸ List.length_pos_of_ne_nil hne, cursor, h, hbit.symm⟩
  · rintro ⟨hpos, cursor, h, hbit⟩
    exact ⟨List.ne_nil_of_length_pos (h.length ▸ hpos), cursor, h, hbit.symm⟩

/-- The texts written as one can be parsed exactly when they can be read one after the other and
have a letter. -/
theorem parse_flattened_iff {parsed : Parsed} :
    parse dialect (flattened dialect texts) start = .ok parsed ↔
      0 < lettersIn dialect texts ∧ Lines dialect texts start parsed.fields parsed.bit := by
  rw [parse_eq_ok_iff, flattened, String.toList_ofList]
  constructor
  · rintro ⟨hne, cursor, h, hbit⟩
    have hlines : Lines dialect texts start parsed.fields parsed.bit := ⟨cursor, h, hbit.symm⟩
    exact ⟨hlines.length ▸ List.length_pos_of_ne_nil hne, hlines⟩
  · rintro ⟨hpos, hlines⟩
    have hne := List.ne_nil_of_length_pos (hlines.length ▸ hpos)
    obtain ⟨cursor, h, hbit⟩ := hlines
    exact ⟨hne, cursor, h, hbit.symm⟩

/-- The parser stands before each field of a format string where the fields before it end. -/
theorem readAt_parse {format : String} {parsed : Parsed}
    (h : parse dialect format start = .ok parsed) :
    readAt start (run dialect format.toList 0 ⟨dialect.order, start⟩).steps =
      Field.placed start parsed.fields := by
  obtain ⟨-, finish, hreads, -⟩ := parse_eq_ok_iff.mp h
  exact (readAt_run format.toList 0 ⟨dialect.order, start⟩).trans
    (congrArg (Field.placed start) (hreads.run 0).2.1)

end BinaryLayout.Format
