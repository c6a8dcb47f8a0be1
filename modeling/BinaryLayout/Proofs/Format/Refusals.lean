import BinaryLayout.Proofs.Format.Bytewise
import BinaryLayout.Proofs.Format.Grammar

/-!
# Why a format string is refused

A run that fails has read everything before one character, as a run over what stands before it alone
does, and that character starts no token, or one that is refused (`exists_refused_token`). Which it
is, and what the failure says, follows from the character, what stands behind it, and the cursor
that is reached there (`Refused`). A format string of signs alone does not fail in this way: it has
no fields.

A format string is only cut where such a character starts. What stands before it are single bytes,
so that the cut is never inside of a character (`parse_refuses_first_token`).
-/

namespace BinaryLayout.Format

variable {dialect : Dialect} {c : Char} {text rest before front back : List Char} {position : Nat}
  {cursor : Cursor} {step : Step} {failure : BuildError}

/-! ### Causes -/

/-- The letter, with `rest` behind it, asks for a field of the kind and the size: the one that its
digits denote, the limit if they denote more, and without digits that of the letter. -/
inductive AsksSize (dialect : Dialect) (c : Char) (rest : List Char) : Shape → Nat → Prop
  | plain {shape : Shape} {size : Nat} (h : (c, shape, size) ∈ plainLetters dialect) :
      AsksSize dialect c rest shape size
  | unsized {shape : Shape} {size : Nat} (h : (c, shape, size) ∈ sizedLetters dialect)
      (hd : Text.digits rest = []) : AsksSize dialect c rest shape size
  | sized {shape : Shape} {size : Nat} (h : (c, shape, size) ∈ sizedLetters dialect)
      (hd : Text.digits rest ≠ []) :
      AsksSize dialect c rest shape (min (Text.decimal (Text.digits rest)) Extent.limit)

/-- What makes the token that starts with `c` the cause of a failure. It stands at a position, where
the cursor is reached, and `rest` stands behind its first character. -/
inductive Refused (dialect : Dialect) (c : Char) (rest : List Char) (position : Nat)
    (cursor : Cursor) : BuildError → Prop
  /-- No token starts with the character. -/
  | unknown (hs : c ≠ '<' ∧ c ≠ '>')
      (hp : ∀ shape size, (c, shape, size) ∉ plainLetters dialect)
      (hz : ∀ shape size, (c, shape, size) ∉ sizedLetters dialect) :
      Refused dialect c rest position cursor (.unknownToken c position)
  /-- There is no such field. -/
  | size {shape : Shape} {size : Nat} (h : AsksSize dialect c rest shape size)
      (hs : ¬ (1 ≤ size ∧ size ≤ shape.largest)) :
      Refused dialect c rest position cursor (.badSize c size)
  /-- A field of bytes would start inside of a byte. -/
  | misaligned {shape : Shape} {size : Nat} (h : AsksSize dialect c rest shape size)
      (hs : 1 ≤ size ∧ size ≤ shape.largest) (hp : shape ≠ .bits) (ha : cursor.bit % 8 ≠ 0) :
      Refused dialect c rest position cursor
        (.misaligned (shape.field size cursor.order cursor.bit).signature (cursor.bit % 8))
  /-- The field would end at a bit that cannot be counted. -/
  | tooLarge {shape : Shape} {size : Nat} (h : AsksSize dialect c rest shape size)
      (hs : 1 ≤ size ∧ size ≤ shape.largest) (ha : shape ≠ .bits → cursor.bit % 8 = 0)
      (hb : Extent.limit <
        cursor.bit + (shape.field size cursor.order cursor.bit).exactBitSize) :
      Refused dialect c rest position cursor (.tooLarge (.position cursor.bit
        (shape.field size cursor.order cursor.bit).exactBitSize))

/-! ### Fields that are not read -/

/-- A size that is found is the one that the letter asks for. -/
private theorem asks_of_sizeOf {letter : Letter} {size : Nat} (hc : dialect.letter? c = some letter)
    (h : sizeOf c letter (suffix letter rest) = .ok size) :
    AsksSize dialect c rest letter.shape size := by
  rw [suffix] at h
  rcases letter?_eq_some_iff.mp hc with ⟨hsized, hletter⟩ | ⟨hsized, hletter⟩
  · rw [if_neg (by simp [hsized])] at h
    obtain rfl := Except.ok.inj h
    exact .plain hletter
  · rw [if_pos hsized] at h
    rcases sizeOf_eq_ok_iff.mp h with ⟨hd, rfl⟩ | ⟨hd, hsize, hle⟩
    · exact .unsized hletter hd
    · have hasks := AsksSize.sized hletter hd
      rwa [hsize, Nat.min_eq_left hle] at hasks

private theorem sizeOf_eq_error {letter : Letter} {digits : List Char}
    (h : sizeOf c letter digits = .error failure) :
    digits ≠ [] ∧ Extent.limit < Text.decimal digits ∧ failure = .badSize c Extent.limit := by
  have hd : digits ≠ [] := by
    rintro rfl
    cases h
  have hlarge : Extent.limit < Text.decimal digits := by
    refine Nat.lt_of_not_le fun hle => ?_
    rw [sizeOf_eq_ok_iff.mpr (.inr ⟨hd, rfl, hle⟩)] at h
    cases h
  refine ⟨hd, hlarge, ?_⟩
  rw [sizeOf] at h
  split at h
  · cases h
  · split at h
    · cases h
    · exact (Except.error.inj h).symm

/-- A letter whose digits denote no extent asks for a field as large as the limit. -/
private theorem asks_of_sizeOf_eq_error {letter : Letter} (hc : dialect.letter? c = some letter)
    (h : sizeOf c letter (suffix letter rest) = .error failure) :
    AsksSize dialect c rest letter.shape Extent.limit ∧ failure = .badSize c Extent.limit := by
  rw [suffix] at h
  rcases letter?_eq_some_iff.mp hc with ⟨hsized, hletter⟩ | ⟨hsized, hletter⟩
  · rw [if_neg (by simp [hsized])] at h
    cases h
  · rw [if_pos hsized] at h
    obtain ⟨hd, hlarge, hfailure⟩ := sizeOf_eq_error h
    have hasks := AsksSize.sized hletter hd
    rw [Nat.min_eq_right (Nat.le_of_lt hlarge)] at hasks
    exact ⟨hasks, hfailure⟩

private theorem checkSize_eq_error {shape : Shape} {size : Nat}
    (h : checkSize c shape size = .error failure) :
    ¬ (1 ≤ size ∧ size ≤ shape.largest) ∧ failure = .badSize c size := by
  rw [checkSize] at h
  split at h
  · cases h
  · exact ⟨‹_›, (Except.error.inj h).symm⟩

private theorem checkAligned_eq_error {shape : Shape} {size bit : Nat} {order : ByteOrder}
    (h : checkAligned (shape.field size order bit) bit = .error failure) :
    shape ≠ .bits ∧ bit % 8 ≠ 0 ∧
      failure = .misaligned (shape.field size order bit).signature (bit % 8) := by
  rw [checkAligned] at h
  split at h
  · rename_i hcond
    refine ⟨?_, hcond.2, (Except.error.inj h).symm⟩
    rintro rfl
    cases hcond.1
  · cases h

private theorem advance_eq_error {start size : Nat} (h : advance start size = .error failure) :
    Extent.limit < start + size ∧ failure = .tooLarge (.position start size) := by
  rw [advance] at h
  split at h
  · cases h
  · rename_i hnone
    exact ⟨Extent.add?_eq_none_iff.mp hnone, (Except.error.inj h).symm⟩

/-- A field that is not read is refused, for the first cause that there is. -/
private theorem refused_of_readField (hc : ∀ order : ByteOrder, c ≠ order.sign)
    (h : readField dialect c rest position cursor = .error failure) :
    Refused dialect c rest position cursor failure := by
  rw [readField] at h
  cases hletter : dialect.letter? c with
  | none =>
    rw [hletter] at h
    obtain rfl := Except.error.inj h
    refine .unknown ⟨hc .little, hc .big⟩ (fun shape size hmem => ?_) fun shape size hmem => ?_
    · have hsome : dialect.letter? c = some ⟨shape, size, false⟩ :=
        letter?_eq_some_iff.mpr (.inl ⟨rfl, hmem⟩)
      rw [hletter] at hsome
      cases hsome
    · have hsome : dialect.letter? c = some ⟨shape, size, true⟩ :=
        letter?_eq_some_iff.mpr (.inr ⟨rfl, hmem⟩)
      rw [hletter] at hsome
      cases hsome
  | some letter =>
    rw [hletter] at h
    rcases Outcome.bind_eq_error_iff.mp h with hn | ⟨size, hn, h⟩
    · obtain ⟨hasks, rfl⟩ := asks_of_sizeOf_eq_error hletter hn
      exact .size hasks fun hs => Nat.not_le_of_lt (largest_lt_limit _) hs.2
    have hasks := asks_of_sizeOf hletter hn
    rcases Outcome.bind_eq_error_iff.mp h with hs | ⟨_, hs, h⟩
    · obtain ⟨hrange, rfl⟩ := checkSize_eq_error hs
      exact .size hasks hrange
    have hs := checkSize_eq_ok_iff.mp hs
    rcases Outcome.bind_eq_error_iff.mp h with ha | ⟨_, ha, h⟩
    · obtain ⟨hp, hbit, rfl⟩ := checkAligned_eq_error ha
      exact .misaligned hasks hs hp hbit
    have ha := checkAligned_eq_ok_iff.mp ha
    rcases Outcome.bind_eq_error_iff.mp h with hb | ⟨_, _, h⟩
    · obtain ⟨hlarge, rfl⟩ := advance_eq_error hb
      rw [(valid_field hs cursor.order cursor.bit).bitSize_eq] at hlarge ⊢
      exact .tooLarge hasks hs ha hlarge
    · cases h

/-! ### What stands before a token -/

/-- A letter keeps its digits when what stands behind them is cut. -/
private theorem suffix_before {letter : Letter}
    (hrest : text.drop (suffix letter text).length = front ++ back) :
    suffix letter (suffix letter text ++ front) = suffix letter text := by
  by_cases hsized : letter.sized = true
  · have hsplit := List.prefix_iff_eq_append.mp (suffix_isPrefix letter text)
    rw [hrest, suffix, if_pos hsized] at hsplit
    have hafter : front ++ back = Text.afterDigits text :=
      List.append_cancel_left (hsplit.trans (Text.digits_append_afterDigits text).symm)
    have hfirst : NoDigitFirst front := by
      intro d hd
      have hhead : (text.dropWhile Char.isDigit).head? = some d := by
        rw [← Text.afterDigits, ← hafter, List.head?_append, Option.mem_def.mp hd]
        rfl
      have hnot := List.head?_dropWhile_not Char.isDigit text
      rwa [hhead] at hnot
    exact suffix_eq_digits hfirst (suffix_eq_nil_or letter text)
  · rw [suffix, suffix, if_neg hsized, if_neg hsized]

/-- A field that is read is read in front of any part of what stands behind it. -/
private theorem exists_readField_before (h : readField dialect c text position cursor = .ok step)
    (hrest : step.rest = front ++ back) : ∃ left step', text = left ++ back ∧
      readField dialect c left position cursor = .ok step' ∧ step'.rest = front ∧
      step = step'.within 0 back := by
  obtain ⟨letter, size, hc, hn, hs, ha, hb, hstep⟩ := readField_eq_ok_iff.mp h
  have hdrop : text.drop (suffix letter text).length = front ++ back := by
    rw [← hrest, hstep]
  have hsuffix := suffix_before hdrop
  refine ⟨suffix letter text ++ front, { step with rest := front }, ?_, ?_, rfl, ?_⟩
  · rw [List.append_assoc, ← hdrop]
    exact (List.prefix_iff_eq_append.mp (suffix_isPrefix letter text)).symm
  · refine readField_eq_ok_iff.mpr ⟨letter, size, hc, ?_, hs, ha, hb, ?_⟩
    · rw [hsuffix]
      exact hn
    · rw [hsuffix, List.drop_left, hstep]
  · rw [Step.within, ← hrest]
    rfl

/-- A step is taken in front of any part of what stands behind its token. -/
private theorem exists_next?_before (h : next? dialect text position cursor = .ok (some step))
    (hrest : step.rest = front ++ back) : ∃ left step', text = left ++ back ∧
      next? dialect left position cursor = .ok (some step') ∧ step'.rest = front ∧
      step = step'.within 0 back := by
  induction text generalizing position cursor with
  | nil => cases h
  | cons c text ih =>
    rcases sign_or_ne c with ⟨order, rfl⟩ | hne
    · rw [next?_sign] at h
      obtain ⟨left, step', rfl, hnext, hfront, hstep⟩ := ih h
      exact ⟨order.sign :: left, step', rfl, (next?_sign order).trans hnext, hfront, hstep⟩
    · have hread := (next?_eq_some_iff hne).mp h
      obtain ⟨left, step', rfl, hleft, hfront, hstep⟩ := exists_readField_before hread hrest
      exact ⟨c :: left, step', rfl, (next?_eq_some_iff hne).mpr hleft, hfront, hstep⟩

/-- Where no field can be read, signs stand before a token that is refused. -/
private theorem exists_of_next?_eq_error (h : next? dialect text position cursor = .error failure) :
    ∃ before c rest, text = before ++ c :: rest ∧
      next? dialect before position cursor = .ok none ∧
      Refused dialect c rest (position + before.length)
        ⟨orderAfter cursor.order before, cursor.bit⟩ failure := by
  induction text generalizing position cursor with
  | nil => cases h
  | cons c text ih =>
    rcases sign_or_ne c with ⟨order, rfl⟩ | hne
    · rw [next?_sign] at h
      obtain ⟨before, c, rest, rfl, hbefore, hrefused⟩ := ih h
      refine ⟨order.sign :: before, c, rest, rfl, (next?_sign order).trans hbefore, ?_⟩
      have hposition : position + (order.sign :: before).length =
          position + 1 + before.length := by
        rw [List.length_cons]
        omega
      rw [hposition, orderAfter_cons, signOrder?_sign]
      exact hrefused
    · have hread := (next?_eq_error_iff hne).mp h
      exact ⟨[], c, text, rfl, rfl, refused_of_readField hne hread⟩

/-- A run that fails has read all that stands before a token that is refused, in the same steps as a
run over that alone. -/
theorem exists_refused_token (h : (run dialect text position cursor).failure = some failure) :
    ∃ before c rest, text = before ++ c :: rest ∧
      (run dialect before position cursor).failure = none ∧
      (run dialect text position cursor).steps =
        (run dialect before position cursor).steps.map (Step.within 0 (c :: rest)) ∧
      Refused dialect c rest (position + before.length) ⟨orderAfter cursor.order before,
        (run dialect before position cursor).bit cursor.bit⟩ failure := by
  fun_induction run dialect text position cursor with
  | case1 text position cursor cause hnext =>
    obtain rfl := Option.some.inj h
    obtain ⟨before, c, rest, htext, hbefore, hrefused⟩ := exists_of_next?_eq_error hnext
    have hrun : run dialect before position cursor = ⟨[], none⟩ := by
      rw [run_eq, hbefore]
    refine ⟨before, c, rest, htext, ?_⟩
    rw [hrun]
    exact ⟨rfl, rfl, hrefused⟩
  | case2 => cases h
  | case3 text position cursor step hnext later ih =>
    obtain ⟨before, c, rest, hrest, hnone, hsteps, hrefused⟩ := ih h
    obtain ⟨left, step', htext, hleft, rfl, rfl⟩ := exists_next?_before hnext hrest
    obtain ⟨token, htoken, -, hposition, horder⟩ := exists_token hleft
    have hrun : run dialect left position cursor =
        ⟨step' :: (run dialect step'.rest step'.position step'.cursor).steps,
          (run dialect step'.rest step'.position step'.cursor).failure⟩ := by
      rw [run_eq, hleft]
    have hend : step'.position + step'.rest.length = position + left.length := by
      rw [htoken, List.length_append]
      omega
    have hlast : orderAfter step'.cursor.order step'.rest = orderAfter cursor.order left := by
      rw [htoken, orderAfter_append, horder]
    refine ⟨left, c, rest, htext, ?_, ?_, ?_⟩
    · rw [hrun]
      exact hnone
    · rw [hrun]
      exact congrArg (List.cons _) hsteps
    · rw [hrun, Run.bit_cons, ← hend, ← hlast]
      exact hrefused

/-! ### Naming the token -/

/-- A text can be cut behind single bytes. -/
private theorem cut?_append (h : ∀ c ∈ before, c.toNat < 128) :
    cut? (before ++ rest) before.length = some rest := by
  induction before with
  | nil =>
    rw [List.nil_append, List.length_nil, cut?]
  | cons c before ih =>
    obtain ⟨hc, hbefore⟩ := List.forall_mem_cons.mp h
    rw [List.cons_append, List.length_cons, cut?, utf8Size_eq_one hc, if_pos (by omega),
      Nat.add_sub_cancel]
    exact ih hbefore

example : cut? ['r', 'é', 'r'] 2 = none := by decide

/-- The byte that is found unknown is named by the character that it starts. -/
private theorem Refused.nameToken_inBytes (h : Refused dialect c rest before.length cursor failure)
    (hbefore : ∀ c ∈ before, c.toNat < 128) :
    nameToken (before ++ c :: rest) failure.inBytes = some failure := by
  cases h with
  | unknown hs hp hz =>
    rw [BuildError.inBytes, nameToken, cut?_append hbefore]
    rfl
  | size | misaligned | tooLarge => rfl

/-! ### Format strings -/

variable {format : String} {bit : Nat}

private theorem run_eq_nil_iff : run dialect text position cursor = ⟨[], none⟩ ↔
    ∀ c ∈ text, ∃ order : ByteOrder, c = order.sign := by
  rw [← @next?_eq_none_iff dialect text position cursor, run_eq]
  cases next? dialect text position cursor with
  | error cause => simp
  | ok found => cases found <;> simp

/-- Parsing fails where its run does, and where the run has no step. -/
theorem parse_eq_error_iff : parse dialect format bit = .error failure ↔
    (run dialect format.toList 0 ⟨dialect.order, bit⟩).failure = some failure ∨
      run dialect format.toList 0 ⟨dialect.order, bit⟩ = ⟨[], none⟩ ∧ failure = .noFields := by
  rw [parse]
  generalize run dialect format.toList 0 ⟨dialect.order, bit⟩ = run
  obtain ⟨steps, cause⟩ := run
  cases cause with
  | some cause => simp
  | none =>
    rcases List.eq_nil_or_concat steps with rfl | ⟨steps, last, rfl⟩
    · simp [eq_comm]
    · simp

/-- No run fails because it has no step. -/
private theorem failure_ne_noFields :
    (run dialect text position cursor).failure ≠ some .noFields := by
  intro h
  obtain ⟨before, c, rest, -, -, -, hrefused⟩ := exists_refused_token h
  cases hrefused

/-- A format string has no fields exactly if it consists of signs. -/
theorem parse_eq_noFields_iff : parse dialect format bit = .error .noFields ↔
    ∀ c ∈ format.toList, c = '<' ∨ c = '>' := by
  have hsign (c : Char) : (∃ order : ByteOrder, c = order.sign) ↔ c = '<' ∨ c = '>' := by
    constructor
    · rintro ⟨order, rfl⟩
      cases order
      · exact .inl rfl
      · exact .inr rfl
    · rintro (rfl | rfl)
      · exact ⟨.little, rfl⟩
      · exact ⟨.big, rfl⟩
  rw [parse_eq_error_iff, or_iff_right failure_ne_noFields, and_iff_left rfl, run_eq_nil_iff]
  simp only [hsign]

/-- Reading the bytes of a format string never cuts it inside of a character, and gives what reading
its characters gives. -/
theorem parseBytes_eq (dialect : Dialect) (format : String) (bit : Nat) :
    parseBytes dialect format bit = some (parse dialect format bit) := by
  have hname {failure : BuildError}
      (h : (run dialect format.toList 0 ⟨dialect.order, bit⟩).failure = some failure) :
      nameToken format.toList failure.inBytes = some failure := by
    obtain ⟨before, c, rest, htext, hnone, -, hrefused⟩ := exists_refused_token h
    rw [Nat.zero_add] at hrefused
    rw [htext]
    exact hrefused.nameToken_inBytes (toNat_lt_of_run hnone)
  rw [parseBytes, parse, byteChars_eq, run_asBytes]
  generalize run dialect format.toList 0 ⟨dialect.order, bit⟩ = run at hname
  obtain ⟨steps, cause⟩ := run
  cases cause with
  | some cause =>
    change (nameToken format.toList cause.inBytes).map Except.error = some (.error cause)
    rw [hname rfl]
    rfl
  | none =>
    rcases List.eq_nil_or_concat steps with rfl | ⟨steps, last, rfl⟩
    · rfl
    · simp [Run.inBytes, Step.inBytes]

/-- Parsing a format string fails in two ways. If it has no fields, it consists of signs. Otherwise
there is a first token that is refused. It starts at a byte where the string can be cut, with single
bytes alone before it, and everything before it is run without failure, in the same steps as in the
whole; and the failure says of the token, and of the cursor that is reached there, what it is
refused for. Reading the bytes of the string, which cuts it at an unknown token, never cuts it
inside of a character, and gives the same. -/
theorem parse_refuses_first_token (dialect : Dialect) (format : String) (bit : Nat) :
    parseBytes dialect format bit = some (parse dialect format bit) ∧
      (parse dialect format bit = .error .noFields ↔ ∀ c ∈ format.toList, c = '<' ∨ c = '>') ∧
      ∀ failure, parse dialect format bit = .error failure → failure ≠ .noFields →
        ∃ before c rest, format.toList = before ++ c :: rest ∧
          (∀ b ∈ before, b.toNat < 128) ∧
          cut? format.toList before.length = some (c :: rest) ∧
          (run dialect before 0 ⟨dialect.order, bit⟩).failure = none ∧
          (run dialect format.toList 0 ⟨dialect.order, bit⟩).steps =
            (run dialect before 0 ⟨dialect.order, bit⟩).steps.map (Step.within 0 (c :: rest)) ∧
          Refused dialect c rest before.length ⟨orderAfter dialect.order before,
            (run dialect before 0 ⟨dialect.order, bit⟩).bit bit⟩ failure := by
  refine ⟨parseBytes_eq dialect format bit, parse_eq_noFields_iff, fun failure h hne => ?_⟩
  rcases parse_eq_error_iff.mp h with hfailure | ⟨-, hnone⟩
  · obtain ⟨before, c, rest, htext, hnone, hsteps, hrefused⟩ := exists_refused_token hfailure
    have hascii := toNat_lt_of_run hnone
    rw [Nat.zero_add] at hrefused
    exact ⟨before, c, rest, htext, hascii, htext ▸ cut?_append hascii, hnone, hsteps, hrefused⟩
  · exact absurd hnone hne

theorem parse_refuses_first_token_accent :
    parse .little "r>é3" 7 = .error (.unknownToken 'é' 2) ∧
      parseBytes .little "r>é3" 7 = some (.error (.unknownToken 'é' 2)) ∧
      ∃ before c rest, "r>é3".toList = before ++ c :: rest ∧
        (run .little before 0 ⟨.little, 7⟩).failure = none ∧
        Refused .little c rest before.length ⟨orderAfter .little before,
          (run .little before 0 ⟨.little, 7⟩).bit 7⟩ (.unknownToken 'é' 2) := by
  have hparse : parse .little "r>é3" 7 = .error (.unknownToken 'é' 2) := by decide +kernel
  obtain ⟨hbytes, -, hfirst⟩ := parse_refuses_first_token .little "r>é3" 7
  obtain ⟨before, c, rest, htext, -, -, hnone, -, hrefused⟩ := hfirst _ hparse (by decide)
  exact ⟨hparse, hbytes.trans (congrArg some hparse), before, c, rest, htext, hnone, hrefused⟩

end BinaryLayout.Format
