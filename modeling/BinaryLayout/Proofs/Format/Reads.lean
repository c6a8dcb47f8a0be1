import BinaryLayout.Format.Basic
import BinaryLayout.Layout.Built
import BinaryLayout.Proofs.Outcome
import BinaryLayout.Proofs.Text.Decimal

/-!
# Reading format strings without positions

`Reads dialect text cursor fields finish` says that a text is read to its end from a cursor on, that
it gives the fields, and that the cursor stands at `finish` then. Positions in the text, which only
messages need, are left out, so that it does not matter where in a longer text it stands.
`Format.parse` succeeds exactly when the whole text is read and has a field (`parse_eq_ok_iff`).

A text with another behind it is read as the two one after the other (`reads_append_iff`), unless
the second one starts with a digit, which would belong to the last letter of the first.
-/

namespace BinaryLayout

/-- The character that puts an order in force. -/
def ByteOrder.sign : ByteOrder → Char
  | .little => '<'
  | .big => '>'

namespace Format

variable {dialect : Dialect} {text rest : List Char} {position : Nat} {cursor finish : Cursor}
  {fields : List Field}

/-- The text is read to its end from `cursor` on, and gives the fields and the cursor `finish`. -/
inductive Reads (dialect : Dialect) : List Char → Cursor → List Field → Cursor → Prop
  | nil {cursor : Cursor} : Reads dialect [] cursor [] cursor
  | order {rest : List Char} {cursor finish : Cursor} {fields : List Field} (new : ByteOrder)
      (h : Reads dialect rest { cursor with order := new } fields finish) :
      Reads dialect (new.sign :: rest) cursor fields finish
  | field {c : Char} {rest : List Char} {cursor finish : Cursor} {fields : List Field}
      {letter : Letter} {size : Nat} (hc : dialect.letter? c = some letter)
      (hn : sizeOf c letter (suffix letter rest) = .ok size)
      (hs : 1 ≤ size ∧ size ≤ letter.shape.largest)
      (ha : letter.shape ≠ .bits → cursor.bit % 8 = 0)
      (hb : cursor.bit + (letter.shape.field size cursor.order cursor.bit).bitSize ≤ Extent.limit)
      (h : Reads dialect (rest.drop (suffix letter rest).length)
        ⟨cursor.order, cursor.bit + (letter.shape.field size cursor.order cursor.bit).bitSize⟩
        fields finish) :
      Reads dialect (c :: rest) cursor (letter.shape.field size cursor.order cursor.bit :: fields)
        finish

/-! ### Steps -/

/-- A size passes its check if the shape can have it. -/
theorem checkSize_eq_ok_iff {c : Char} {shape : Shape} {size : Nat} :
    checkSize c shape size = .ok () ↔ 1 ≤ size ∧ size ≤ shape.largest := by
  rw [checkSize]
  split <;> simp_all

theorem checkAligned_eq_ok_iff {shape : Shape} {size : Nat} {order : ByteOrder} {bit : Nat} :
    checkAligned (shape.field size order bit) bit = .ok () ↔ (shape ≠ .bits → bit % 8 = 0) := by
  cases shape with
  | bits => simp [checkAligned, Shape.field, Field.isBitPacked]
  | integer | raw => simp [checkAligned, Shape.field, Field.isBitPacked]

/-- A position can be moved on as long as it is an extent. -/
theorem advance_eq_ok_iff {start size next : Nat} :
    advance start size = .ok next ↔ start + size = next ∧ next ≤ Extent.limit := by
  rw [advance, ← Extent.add?_eq_some_iff]
  cases Extent.add? start size <;> simp

/-- What it takes to read a field, and what is read. -/
theorem readField_eq_ok_iff {c : Char} {step : Step} :
    readField dialect c rest position cursor = .ok step ↔ ∃ letter size,
      dialect.letter? c = some letter ∧ sizeOf c letter (suffix letter rest) = .ok size ∧
        (1 ≤ size ∧ size ≤ letter.shape.largest) ∧
        (letter.shape ≠ .bits → cursor.bit % 8 = 0) ∧
        cursor.bit + (letter.shape.field size cursor.order cursor.bit).bitSize ≤ Extent.limit ∧
        step = {
          field := letter.shape.field size cursor.order cursor.bit
          position := position + 1 + (suffix letter rest).length
          cursor := ⟨cursor.order,
            cursor.bit + (letter.shape.field size cursor.order cursor.bit).bitSize⟩
          rest := rest.drop (suffix letter rest).length } := by
  rw [readField]
  cases dialect.letter? c with
  | none => simp
  | some letter =>
    simp only [Outcome.bind_eq_ok_iff, advance_eq_ok_iff, Option.some.injEq]
    constructor
    · rintro ⟨size, hn, _, hs, _, ha, bit, ⟨rfl, hb⟩, hstep⟩
      exact ⟨letter, size, rfl, hn, checkSize_eq_ok_iff.mp hs, checkAligned_eq_ok_iff.mp ha, hb,
        (Except.ok.inj hstep).symm⟩
    · rintro ⟨_, size, rfl, hn, hs, ha, hb, rfl⟩
      exact ⟨size, hn, _, checkSize_eq_ok_iff.mpr hs, _, checkAligned_eq_ok_iff.mpr ha, _,
        ⟨rfl, hb⟩, rfl⟩

/-! ### Digits behind a letter -/

/-- The digits of a letter stand directly behind it. -/
theorem suffix_isPrefix (letter : Letter) (rest : List Char) : suffix letter rest <+: rest := by
  rw [suffix]
  split
  · exact List.takeWhile_prefix _
  · exact List.nil_prefix

/-- What belongs to a letter are digits, and there are none behind a letter of fixed size. -/
theorem suffix_eq_nil_or (letter : Letter) (rest : List Char) : suffix letter rest = [] ∨
    letter.sized = true ∧ ∀ d ∈ suffix letter rest, d.isDigit = true := by
  rw [suffix]
  split
  · exact .inr ⟨‹_›, fun d hd => Text.isDigit_of_mem_digits hd⟩
  · exact .inl rfl

/-! ### Whole texts -/

theorem letter?_sign (order : ByteOrder) : dialect.letter? order.sign = none := by
  cases order <;> rfl

/-- A sign puts an order in force for what follows. -/
theorem next?_sign (order : ByteOrder) :
    next? dialect (order.sign :: rest) position cursor =
      next? dialect rest (position + 1) { cursor with order } := by
  cases order <;> rfl

/-- A character that is no sign introduces a field. -/
theorem next?_of_ne {c : Char} (hc : ∀ order : ByteOrder, c ≠ order.sign) :
    next? dialect (c :: rest) position cursor =
      (readField dialect c rest position cursor).map some := by
  rw [next?]
  exact (if_neg (hc .little)).trans (if_neg (hc .big))

theorem next?_eq_some_iff {c : Char} {step : Step} (hc : ∀ order : ByteOrder, c ≠ order.sign) :
    next? dialect (c :: rest) position cursor = .ok (some step) ↔
      readField dialect c rest position cursor = .ok step := by
  rw [next?_of_ne hc, Outcome.map_eq_ok_iff]
  simp

/-- At a character that is no sign, reading fails as its field does. -/
theorem next?_eq_error_iff {c : Char} {failure : BuildError}
    (hc : ∀ order : ByteOrder, c ≠ order.sign) :
    next? dialect (c :: rest) position cursor = .error failure ↔
      readField dialect c rest position cursor = .error failure := by
  rw [next?_of_ne hc]
  cases readField dialect c rest position cursor <;> simp [Except.map]

/-- A character is a sign or introduces a field. -/
theorem sign_or_ne (c : Char) :
    (∃ order : ByteOrder, c = order.sign) ∨ ∀ order : ByteOrder, c ≠ order.sign := by
  by_cases h : ∃ order : ByteOrder, c = order.sign
  · exact .inl h
  · exact .inr fun order hc => h ⟨order, hc⟩

/-- Before a field, or the end of the text, stand signs alone. -/
private theorem reads_of_next? :
    (next? dialect text position cursor = .ok none →
      ∃ finish, Reads dialect text cursor [] finish ∧ finish.bit = cursor.bit) ∧
      ∀ step fields finish, next? dialect text position cursor = .ok (some step) →
        Reads dialect step.rest step.cursor fields finish →
          Reads dialect text cursor (step.field :: fields) finish := by
  induction text generalizing position cursor with
  | nil =>
    constructor
    · intro _
      exact ⟨cursor, .nil, rfl⟩
    · intro _ _ _ h
      cases h
  | cons c rest ih =>
    by_cases hsign : ∃ order : ByteOrder, c = order.sign
    · obtain ⟨order, rfl⟩ := hsign
      rw [next?_sign]
      obtain ⟨hnone, hsome⟩ := @ih (position + 1) { cursor with order }
      constructor
      · intro h
        obtain ⟨finish, h, hbit⟩ := hnone h
        exact ⟨finish, .order order h, hbit⟩
      · intro step fields finish h hrest
        exact .order order (hsome step fields finish h hrest)
    · rw [next?_of_ne fun order h => hsign ⟨order, h⟩]
      constructor
      · intro h
        obtain ⟨_, -, h⟩ := Outcome.map_eq_ok_iff.mp h
        cases h
      · intro step fields finish h hrest
        obtain ⟨step', hstep, h⟩ := Outcome.map_eq_ok_iff.mp h
        obtain rfl := Option.some.inj h
        obtain ⟨letter, size, hc, hn, hs, ha, hb, rfl⟩ := readField_eq_ok_iff.mp hstep
        exact .field hc hn hs ha hb hrest

/-- A run takes its first field, and goes on behind it. -/
theorem run_eq : run dialect text position cursor =
    match next? dialect text position cursor with
    | .error failure => ⟨[], some failure⟩
    | .ok none => ⟨[], none⟩
    | .ok (some step) =>
      ⟨step :: (run dialect step.rest step.position step.cursor).steps,
        (run dialect step.rest step.position step.cursor).failure⟩ := by
  rw [run]
  split <;> simp_all

/-- The bit at which steps from `start` on end. -/
def Run.bit (run : Run) (start : Nat) : Nat :=
  match run.steps.getLast? with
  | some last => last.cursor.bit
  | none => start

theorem Run.bit_cons (step : Step) (steps : List Step) (failure : Option BuildError) (start : Nat) :
    Run.bit ⟨step :: steps, failure⟩ start = Run.bit ⟨steps, failure⟩ step.cursor.bit := by
  rw [Run.bit, Run.bit, List.getLast?_cons]
  cases steps.getLast? <;> rfl

/-- A run without failure has read its text. -/
private theorem reads_of_run (h : (run dialect text position cursor).failure = none) :
    ∃ finish, Reads dialect text cursor ((run dialect text position cursor).steps.map Step.field)
      finish ∧ finish.bit = (run dialect text position cursor).bit cursor.bit := by
  fun_induction run dialect text position cursor with
  | case1 => cases h
  | case2 text position cursor hnext =>
    obtain ⟨finish, hreads, hbit⟩ := reads_of_next?.1 hnext
    exact ⟨finish, hreads, hbit⟩
  | case3 text position cursor step hnext rest ih =>
    obtain ⟨finish, hreads, hbit⟩ := ih h
    refine ⟨finish, reads_of_next?.2 step _ _ hnext hreads, ?_⟩
    rw [hbit, Run.bit_cons]

/-- A text that is read is read by a run, wherever it stands. -/
theorem Reads.run (h : Reads dialect text cursor fields finish) (position : Nat) :
    (run dialect text position cursor).failure = none ∧
      (run dialect text position cursor).steps.map Step.field = fields ∧
        (run dialect text position cursor).bit cursor.bit = finish.bit := by
  induction h generalizing position with
  | nil => rw [run_eq]; exact ⟨rfl, rfl, rfl⟩
  | order new h ih =>
    rw [run_eq, next?_sign, ← run_eq]
    exact ih (position + 1)
  | @field c rest cursor finish fields letter size hc hn hs ha hb h ih =>
    have hsign (order : ByteOrder) : c ≠ order.sign := by
      rintro rfl
      rw [letter?_sign] at hc
      cases hc
    have hstep : readField dialect c rest position cursor = .ok _ :=
      readField_eq_ok_iff.mpr ⟨letter, size, hc, hn, hs, ha, hb, rfl⟩
    rw [run_eq, next?_of_ne hsign, hstep]
    obtain ⟨hfailure, hfields, hbit⟩ := ih (position + 1 + (suffix letter rest).length)
    refine ⟨hfailure, by rw [← hfields]; rfl, ?_⟩
    rw [← hbit]
    exact Run.bit_cons _ _ _ _

/-- A format string can be parsed exactly when it can be read to its end and has a field. -/
theorem parse_eq_ok_iff {format : String} {bit : Nat} {parsed : Parsed} :
    parse dialect format bit = .ok parsed ↔ parsed.fields ≠ [] ∧ ∃ finish,
      Reads dialect format.toList ⟨dialect.order, bit⟩ parsed.fields finish ∧
        parsed.bit = finish.bit := by
  -- what the parser makes of its run
  have hparse : parse dialect format bit = .ok parsed ↔
      (run dialect format.toList 0 ⟨dialect.order, bit⟩).failure = none ∧ parsed.fields ≠ [] ∧
        (run dialect format.toList 0 ⟨dialect.order, bit⟩).steps.map Step.field = parsed.fields ∧
          (run dialect format.toList 0 ⟨dialect.order, bit⟩).bit bit = parsed.bit := by
    rw [parse]
    generalize run dialect format.toList 0 ⟨dialect.order, bit⟩ = run
    obtain ⟨steps, failure⟩ := run
    obtain ⟨fields, finish⟩ := parsed
    cases failure with
    | some failure => simp
    | none =>
      rw [Run.bit]
      rcases List.eq_nil_or_concat steps with rfl | ⟨steps, last, rfl⟩
      · simpa using fun hne h => absurd h hne
      · simpa using by rintro rfl - ; simp
  rw [hparse]
  constructor
  · rintro ⟨hfailure, hne, hfields, hbit⟩
    obtain ⟨finish, hreads, hfinish⟩ := reads_of_run hfailure
    exact ⟨hne, finish, hfields ▸ hreads, hbit.symm.trans hfinish.symm⟩
  · rintro ⟨hne, finish, hreads, hbit⟩
    obtain ⟨hfailure, hfields, hfinish⟩ := hreads.run 0
    exact ⟨hfailure, hne, hfields, hfinish.trans hbit.symm⟩

/-! ### One text after another -/

variable {left right : List Char}

/-- The text does not start with a digit. -/
def NoDigitFirst (text : List Char) : Prop := ∀ c ∈ text.head?, c.isDigit = false

theorem noDigitFirst_sign (order : ByteOrder) (rest : List Char) :
    NoDigitFirst (order.sign :: rest) := by
  rintro c hc
  obtain rfl := Option.some.inj hc
  cases order <;> rfl

/-- The digits of a letter do not reach into a text that does not start with one. -/
theorem suffix_append (letter : Letter) (hr : NoDigitFirst right) :
    suffix letter (left ++ right) = suffix letter left := by
  rw [suffix, suffix, Text.digits_append hr]

/-- Behind the digits of a letter, the rest of the text stands in front of the other. -/
theorem drop_suffix_append (letter : Letter) :
    (left ++ right).drop (suffix letter left).length =
      left.drop (suffix letter left).length ++ right :=
  List.drop_append_of_le_length (suffix_isPrefix letter left).length_le

/-- Two texts that are read one after the other are read as one. -/
theorem Reads.append {middle : Cursor} {fields' : List Field}
    (hl : Reads dialect left cursor fields middle) (hd : NoDigitFirst right)
    (hr : Reads dialect right middle fields' finish) :
    Reads dialect (left ++ right) cursor (fields ++ fields') finish := by
  induction hl with
  | nil => exact hr
  | order new h ih => exact .order new (ih hr)
  | @field c rest cursor _ _ letter size hc hn hs ha hb h ih =>
    -- the digits after the letter end with the left text at the latest
    have hrest := ih hr
    rw [← drop_suffix_append, ← suffix_append letter hd] at hrest
    rw [← suffix_append letter hd] at hn
    exact .field hc hn hs ha hb hrest

/-- One text that is read is read in two parts, wherever it is cut before a character that is no
digit. -/
theorem reads_append_iff (hd : NoDigitFirst right) :
    Reads dialect (left ++ right) cursor fields finish ↔ ∃ middle before after,
      Reads dialect left cursor before middle ∧ Reads dialect right middle after finish ∧
        fields = before ++ after := by
  constructor
  · intro h
    -- on the reading of the whole, along which the place of the cut comes closer
    generalize htext : left ++ right = text at h
    induction h generalizing left with
    | nil =>
      obtain ⟨rfl, rfl⟩ := List.append_eq_nil_iff.mp htext
      exact ⟨_, [], [], .nil, .nil, rfl⟩
    | @order rest cursor finish fields new h ih =>
      cases left with
      | nil =>
        obtain rfl : right = new.sign :: rest := htext
        exact ⟨cursor, [], fields, .nil, .order new h, rfl⟩
      | cons c left =>
        obtain ⟨rfl, hrest⟩ := List.cons.inj htext
        obtain ⟨middle, before, after, hl, hr, hfields⟩ := ih hrest
        exact ⟨middle, before, after, .order new hl, hr, hfields⟩
    | @field c rest cursor finish fields letter size hc hn hs ha hb h ih =>
      cases left with
      | nil =>
        obtain rfl : right = c :: rest := htext
        exact ⟨cursor, [], _, .nil, .field hc hn hs ha hb h, rfl⟩
      | cons c' left =>
        obtain ⟨rfl, hrest⟩ := List.cons.inj htext
        obtain rfl : left ++ right = rest := hrest
        rw [suffix_append letter hd] at hn
        have hsplit : left.drop (suffix letter left).length ++ right =
            (left ++ right).drop (suffix letter (left ++ right)).length := by
          rw [suffix_append letter hd, drop_suffix_append]
        obtain ⟨middle, before, after, hl, hr, rfl⟩ := ih hsplit
        exact ⟨middle, _ :: before, after, .field hc hn hs ha hb hl, hr, rfl⟩
  · rintro ⟨middle, before, after, hl, hr, rfl⟩
    exact hl.append hd hr

/-! ### What is read -/

/-- A field of a size that its shape can have is valid. -/
theorem valid_field {shape : Shape} {size : Nat} (hs : 1 ≤ size ∧ size ≤ shape.largest)
    (order : ByteOrder) (bit : Nat) : (shape.field size order bit).Valid := by
  cases shape with
  | bits => exact ⟨hs.1, hs.2, Nat.le_of_lt_succ (Nat.mod_lt bit (by decide))⟩
  | integer | raw => exact hs

/-- The fields that are read are valid. -/
theorem Reads.valid (h : Reads dialect text cursor fields finish) :
    ∀ field ∈ fields, field.Valid := by
  induction h with
  | nil => simp
  | order new h ih => exact ih
  | field hc hn hs ha hb h ih =>
    intro field hmem
    rcases List.mem_cons.mp hmem with rfl | hmem
    · exact valid_field hs _ _
    · exact ih field hmem

end Format

end BinaryLayout
