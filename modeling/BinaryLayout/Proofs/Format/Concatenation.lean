import BinaryLayout.Proofs.Format.Reads
import Mathlib.Data.List.Infix

/-!
# Format strings one after the other

A run over a text with another text behind it takes the steps of a run over the first, and then
those of a run over the second, unless the first one fails. The second one goes on where the first
has ended: with the bits that are laid out by then, and with the byte order of the last sign of the
first text (`orderAfter`), also where no field follows that sign.

Steps and failures of a part are put into the whole with `Step.within` and `BuildError.behind`,
which move their positions by the bytes before the part. Both directions come from one induction,
for a part with any number of bytes before it and any text behind it (`run_within`). The text behind
must not start with a digit, which would belong to the last letter of the part.
-/

namespace BinaryLayout

/-- The failure in a text that has so many more bytes in front. -/
def BuildError.behind (size : Nat) : BuildError → BuildError
  | .unknownToken token position => .unknownToken token (position + size)
  | failure => failure

/-- Nothing but what is said of an unknown token is changed. -/
def BuildError.ChangesTokens (change : BuildError → BuildError) : Prop :=
  ∀ failure, (∀ token position, failure ≠ .unknownToken token position) → change failure = failure

private theorem BuildError.changesTokens_behind (size : Nat) : ChangesTokens (behind size) := by
  intro failure h
  cases failure with
  | unknownToken token position => exact absurd rfl (h token position)
  | _ => rfl

namespace Format

/-- The step in a text that has so many more bytes in front, and the text `back` behind. -/
def Step.within (size : Nat) (back : List Char) (step : Step) : Step :=
  { step with position := step.position + size, rest := step.rest ++ back }

/-- The run in a text that has so many more bytes in front, and the text `back` behind. -/
def Run.within (size : Nat) (back : List Char) (run : Run) : Run :=
  ⟨run.steps.map (Step.within size back), run.failure.map (BuildError.behind size)⟩

/-- One run and another after it, unless the first one failed. -/
def Run.andThen (first second : Run) : Run :=
  match first.failure with
  | some failure => ⟨first.steps, some failure⟩
  | none => ⟨first.steps ++ second.steps, second.failure⟩

/-- The byte order that a character puts in force. -/
def signOrder? : Char → Option ByteOrder
  | '<' => some .little
  | '>' => some .big
  | _ => none

/-- The byte order in force after a text: that of the last sign in it, if it has one. -/
def orderAfter (order : ByteOrder) (text : List Char) : ByteOrder :=
  (text.filterMap signOrder?).getLast?.getD order

variable {dialect : Dialect} {c : Char} {text left right : List Char} {position size : Nat}
  {cursor : Cursor} {step : Step} {order : ByteOrder}

/-! ### Signs -/

theorem signOrder?_sign (order : ByteOrder) : signOrder? order.sign = some order := by
  cases order <;> rfl

private theorem signOrder?_eq_none (hc : ∀ order : ByteOrder, c ≠ order.sign) :
    signOrder? c = none := by
  rw [signOrder?]
  · exact hc .little
  · exact hc .big

/-- The order after a text is that after its second part, which starts with the order after the
first. -/
theorem orderAfter_append : orderAfter order (left ++ right) =
    orderAfter (orderAfter order left) right := by
  rw [orderAfter, List.filterMap_append, List.getLast?_append, Option.getD_or]
  rfl

/-- The first character puts its order in force, if it is a sign. -/
theorem orderAfter_cons : orderAfter order (c :: text) =
    orderAfter ((signOrder? c).getD order) text := by
  have hfirst : orderAfter order [c] = (signOrder? c).getD order := by
    rw [orderAfter, List.filterMap_cons]
    cases signOrder? c <;> rfl
  rw [← hfirst, ← orderAfter_append, List.singleton_append]

/-- Digits put no byte order in force. -/
private theorem orderAfter_digits (hd : ∀ d ∈ text, d.isDigit = true) :
    orderAfter order text = order := by
  have hnone : text.filterMap signOrder? = [] := by
    refine List.filterMap_eq_nil_iff.mpr fun d hmem => signOrder?_eq_none fun order heq => ?_
    have hdigit := hd d hmem
    rw [heq] at hdigit
    cases order <;> cases hdigit
  rw [orderAfter, hnone]
  rfl

/-! ### Tokens -/

/-- Letters, signs and digits are single bytes. -/
theorem toNat_lt_of_letter? {letter : Letter} (hc : dialect.letter? c = some letter) :
    c.toNat < 128 := by
  unfold Dialect.letter? at hc
  split at hc <;> first | decide | cases hc

/-- A sign is a single byte. -/
theorem toNat_sign_lt (order : ByteOrder) : order.sign.toNat < 128 := by
  cases order <;> decide

/-- A digit is a single byte. -/
theorem toNat_lt_of_isDigit (hc : c.isDigit = true) : c.toNat < 128 := by
  have hle : c.val ≤ '9'.val := (of_decide_eq_true ((Bool.and_eq_true _ _).mp hc).2)
  exact Nat.lt_of_le_of_lt hle (by decide)

theorem utf8Size_eq_one (hc : c.toNat < 128) : c.utf8Size = 1 :=
  Char.utf8Size_eq_one_iff.mpr (Nat.le_of_lt_succ hc)

/-- A field takes its letter and digits from the text, and keeps the byte order. -/
private theorem exists_digits (h : readField dialect c text position cursor = .ok step) :
    ∃ digits, text = digits ++ step.rest ∧ (∀ d ∈ digits, d.isDigit = true) ∧
      c.toNat < 128 ∧ step.position = position + 1 + digits.length ∧
      step.cursor.order = cursor.order := by
  obtain ⟨letter, size, hc, -, -, -, -, rfl⟩ := readField_eq_ok_iff.mp h
  have hdigits : ∀ d ∈ suffix letter text, d.isDigit = true := by
    rcases suffix_eq_nil_or letter text with hnil | ⟨-, hd⟩
    · simp [hnil]
    · exact hd
  exact ⟨suffix letter text, List.prefix_iff_eq_append.mp (suffix_isPrefix letter text) |>.symm,
    hdigits, toNat_lt_of_letter? hc, rfl, rfl⟩

/-- A step takes signs, a letter and digits from the text. The byte order after it is that of the
last sign. -/
theorem exists_token (h : next? dialect text position cursor = .ok (some step)) :
    ∃ token, text = token ++ step.rest ∧ (∀ c ∈ token, c.toNat < 128) ∧
      step.position = position + token.length ∧
      step.cursor.order = orderAfter cursor.order token := by
  induction text generalizing position cursor with
  | nil => cases h
  | cons c rest ih =>
    rcases sign_or_ne c with ⟨order, rfl⟩ | hne
    · rw [next?_sign] at h
      obtain ⟨token, hrest, hascii, hposition, horder⟩ := ih h
      refine ⟨order.sign :: token, congrArg _ hrest, ?_, ?_, ?_⟩
      · exact List.forall_mem_cons.mpr ⟨toNat_sign_lt order, hascii⟩
      · rw [hposition, List.length_cons]
        omega
      · rw [horder, orderAfter_cons, signOrder?_sign]
        rfl
    · have hstep := (next?_eq_some_iff hne).mp h
      obtain ⟨digits, hrest, hdigits, hc, hposition, horder⟩ := exists_digits hstep
      refine ⟨c :: digits, congrArg _ hrest, ?_, ?_, ?_⟩
      · exact List.forall_mem_cons.mpr ⟨hc, fun d hd => toNat_lt_of_isDigit (hdigits d hd)⟩
      · rw [hposition, List.length_cons]
        omega
      · rw [horder, orderAfter_cons, signOrder?_eq_none hne, Option.getD_none,
          orderAfter_digits hdigits]

/-- Where there is no field left, signs alone are. -/
theorem next?_eq_none_iff : next? dialect text position cursor = .ok none ↔
    ∀ c ∈ text, ∃ order : ByteOrder, c = order.sign := by
  induction text generalizing position cursor with
  | nil => exact iff_of_true rfl (by simp)
  | cons c rest ih =>
    rw [List.forall_mem_cons]
    rcases sign_or_ne c with ⟨order, rfl⟩ | hne
    · rw [next?_sign, ih, and_iff_right ⟨order, rfl⟩]
    · rw [next?_of_ne hne, Outcome.map_eq_ok_iff]
      exact iff_of_false (by simp) fun ⟨⟨order, hc⟩, _⟩ => hne order hc

/-- A text that is run without failure has single bytes only. -/
theorem toNat_lt_of_run (h : (run dialect text position cursor).failure = none) :
    ∀ c ∈ text, c.toNat < 128 := by
  fun_induction run dialect text position cursor with
  | case1 => cases h
  | case2 text position cursor hnext =>
    intro c hc
    obtain ⟨order, rfl⟩ := next?_eq_none_iff.mp hnext c hc
    exact toNat_sign_lt order
  | case3 text position cursor step hnext rest ih =>
    obtain ⟨token, htext, hascii, -, -⟩ := exists_token hnext
    rw [htext]
    exact List.forall_mem_append.mpr ⟨hascii, ih h⟩

/-! ### Failures of the checks -/

section

variable {change : BuildError → BuildError}

theorem mapError_sizeOf (h : BuildError.ChangesTokens change) (c : Char) (letter : Letter)
    (digits : List Char) : (sizeOf c letter digits).mapError change = sizeOf c letter digits := by
  rw [sizeOf]
  split
  · rfl
  · split
    · rfl
    · exact congrArg Except.error (h _ (by simp))

theorem mapError_checkSize (h : BuildError.ChangesTokens change) (c : Char) (shape : Shape)
    (size : Nat) : (checkSize c shape size).mapError change = checkSize c shape size := by
  rw [checkSize]
  split
  · rfl
  · exact congrArg Except.error (h _ (by simp))

theorem mapError_checkAligned (h : BuildError.ChangesTokens change) (field : Field) (bit : Nat) :
    (checkAligned field bit).mapError change = checkAligned field bit := by
  rw [checkAligned]
  split
  · exact congrArg Except.error (h _ (by simp))
  · rfl

theorem mapError_advance (h : BuildError.ChangesTokens change) (start size : Nat) :
    (advance start size).mapError change = advance start size := by
  rw [advance]
  split
  · rfl
  · exact congrArg Except.error (h _ (by simp))

end

/-! ### Parts of a text -/

/-- A field is read in the same way within a longer text, if its letter keeps its digits. -/
private theorem readField_within (hs : ∀ letter, dialect.letter? c = some letter →
      suffix letter (left ++ right) = suffix letter left) :
    readField dialect c (left ++ right) (position + size) cursor =
      ((readField dialect c left position cursor).mapError (BuildError.behind size)).map
        (Step.within size right) := by
  rw [readField, readField]
  cases hc : dialect.letter? c with
  | none => rfl
  | some letter =>
    have hposition (n : Nat) : position + size + 1 + n = position + 1 + n + size := by omega
    have hchange := BuildError.changesTokens_behind size
    simp only [hs letter hc, drop_suffix_append, hposition, Outcome.mapError_bind, Outcome.map_bind,
      mapError_sizeOf hchange, mapError_checkSize hchange, mapError_checkAligned hchange,
      mapError_advance hchange]
    rfl

/-- The next field of a part is the next one within a longer text. If the part has none, it is that
of the text behind. -/
private theorem next?_within (hd : NoDigitFirst right) :
    next? dialect (left ++ right) (position + size) cursor =
      match next? dialect left position cursor with
      | .error failure => .error (failure.behind size)
      | .ok (some step) => .ok (some (step.within size right))
      | .ok none => next? dialect right (position + size + left.length)
          ⟨orderAfter cursor.order left, cursor.bit⟩ := by
  induction left generalizing position cursor with
  | nil => rfl
  | cons c left ih =>
    rcases sign_or_ne c with ⟨order, rfl⟩ | hne
    · have hstart : position + size + 1 = position + 1 + size := Nat.add_right_comm _ _ _
      have hend : position + 1 + size + left.length =
          position + size + (order.sign :: left).length := by
        rw [List.length_cons]
        omega
      rw [List.cons_append, next?_sign, next?_sign, hstart, ih, hend, orderAfter_cons,
        signOrder?_sign]
      rfl
    · rw [List.cons_append, next?_of_ne hne, next?_of_ne hne,
        readField_within fun letter _ => suffix_append letter hd]
      cases readField dialect c left position cursor <;> rfl

/-! ### Runs -/

private theorem Run.andThen_cons (steps : List Step) (failure : Option BuildError) (second : Run) :
    Run.andThen ⟨step :: steps, failure⟩ second =
      ⟨step :: (Run.andThen ⟨steps, failure⟩ second).steps,
        (Run.andThen ⟨steps, failure⟩ second).failure⟩ := by
  cases failure <;> rfl

/-- A run over a part of a text, with so many bytes before it, and then over what is behind. -/
theorem run_within (hd : NoDigitFirst right) :
    run dialect (left ++ right) (position + size) cursor =
      ((run dialect left position cursor).within size right).andThen
        (run dialect right (position + size + left.length)
          ⟨orderAfter cursor.order left, (run dialect left position cursor).bit cursor.bit⟩) := by
  fun_induction run dialect left position cursor with
  | case1 left position cursor failure hnext =>
    rw [run_eq, next?_within hd, hnext]
    rfl
  | case2 left position cursor hnext =>
    rw [run_eq, next?_within hd, hnext]
    exact run_eq.symm
  | case3 left position cursor step hnext rest ih =>
    obtain ⟨token, htext, -, hposition, horder⟩ := exists_token hnext
    have hend : step.position + size + step.rest.length = position + size + left.length := by
      rw [htext, List.length_append]
      omega
    have hlast : orderAfter step.cursor.order step.rest = orderAfter cursor.order left := by
      rw [htext, orderAfter_append, horder]
    rw [hend, hlast] at ih
    rw [run_eq, next?_within hd, hnext, Run.bit_cons]
    refine Eq.trans ?_ (Run.andThen_cons _ _ _).symm
    exact congrArg (fun run : Run => (⟨step.within size right :: run.steps, run.failure⟩ : Run)) ih

private theorem Run.andThen_nil (run : Run) : run.andThen ⟨[], none⟩ = run := by
  obtain ⟨steps, failure⟩ := run
  cases failure with
  | none => exact congrArg (Run.mk · none) (List.append_nil steps)
  | some failure => rfl

/-- What comes after a run that failed does not matter. -/
private theorem Run.andThen_congr {first second second' : Run}
    (h : first.failure = none → second = second') :
    first.andThen second = first.andThen second' := by
  obtain ⟨steps, failure⟩ := first
  cases failure with
  | none => rw [h rfl]
  | some failure => rfl

/-- The run over a text that has so many more bytes in front. -/
private theorem run_behind : run dialect text (position + size) cursor =
    (run dialect text position cursor).within size [] := by
  have hnil : run dialect [] (position + size + text.length) ⟨orderAfter cursor.order text,
      (run dialect text position cursor).bit cursor.bit⟩ = ⟨[], none⟩ := by
    rw [run_eq]
    rfl
  have hrun := @run_within dialect text [] position size cursor nofun
  rwa [hnil, Run.andThen_nil, List.append_nil] at hrun

/-! ### Format strings -/

/-- A format string of single bytes has as many bytes as characters. -/
private theorem utf8ByteSize_eq_length {format : String} (h : ∀ c ∈ format.toList, c.toNat < 128) :
    format.utf8ByteSize = format.toList.length := by
  have hsize : ∀ c ∈ format.toList, (String.utf8EncodeChar c).length = 1 := by
    intro c hc
    rw [String.length_utf8EncodeChar]
    exact utf8Size_eq_one (h c hc)
  rw [← String.size_toByteArray, ← String.utf8Encode_toList, List.utf8Encode,
    List.size_toByteArray, List.length_flatMap, List.map_congr_left hsize, List.map_const',
    List.sum_replicate_nat, Nat.mul_one]

/-- A run over two format strings, one after the other, of which the second does not start with a
digit. It fails where a run over the first one fails. Otherwise it goes on with the steps of a run
over the second one, which starts from the bits laid out by the first and with the byte order of its
last sign, and it fails where this run does. Positions are moved by the bytes of the first one. -/
theorem run_append (dialect : Dialect) {front back : String} (start : Cursor)
    (hd : NoDigitFirst back.toList) :
    run dialect (front ++ back).toList 0 start =
      ((run dialect front.toList 0 start).within 0 back.toList).andThen
        ((run dialect back.toList 0 ⟨orderAfter start.order front.toList,
          (run dialect front.toList 0 start).bit start.bit⟩).within front.utf8ByteSize []) := by
  have hrun := @run_within dialect front.toList back.toList 0 0 start hd
  rw [String.toList_append, hrun]
  refine Run.andThen_congr fun hfailure => ?_
  have hnone : (run dialect front.toList 0 start).failure = none :=
    Option.map_eq_none_iff.mp hfailure
  rw [utf8ByteSize_eq_length (toNat_lt_of_run hnone), ← run_behind]

/-- The second text has the order of the sign at the end of the first. -/
theorem run_append_switched : NoDigitFirst "Ié".toList ∧
    run .big ("<I2>" ++ "Ié").toList 0 ⟨.big, 0⟩ =
      ⟨[⟨.integer .unsigned 2 .little, 3, ⟨.little, 16⟩, ['>', 'I', 'é']⟩,
        ⟨.integer .unsigned 4 .big, 5, ⟨.big, 48⟩, ['é']⟩], some (.unknownToken 'é' 5)⟩ := by
  have hd : NoDigitFirst "Ié".toList := by
    intro c hc
    obtain rfl := Option.some.inj hc
    rfl
  exact ⟨hd, (run_append .big ⟨.big, 0⟩ hd).trans (by decide +kernel)⟩

end Format

end BinaryLayout
