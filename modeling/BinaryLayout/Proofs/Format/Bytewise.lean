import BinaryLayout.Format.Bytewise
import BinaryLayout.Proofs.Format.Concatenation

/-!
# Format strings read byte after byte

The bytes of a text, each taken for a character, are read as the text is. Every token consists of
characters that are single bytes and stand for themselves. All other characters start with a byte
that is in no token, so reading fails there in both cases, and differs only in the character that
the failure names (`run_asBytes`).
-/

namespace BinaryLayout

namespace Format

variable {dialect : Dialect} {c : Char} {text left right : List Char} {position : Nat}
  {cursor : Cursor}

/-! ### Bytes of a text -/

/-- The bytes of a text, each taken for a character. -/
def asBytes (text : List Char) : List Char :=
  (text.flatMap String.utf8EncodeChar).map Char.ofUInt8

/-- The first byte of a character, taken for a character. -/
def leadByte (c : Char) : Char := (asBytes [c]).headD c

/-- The characters that are read byte after byte are the bytes of the text. -/
theorem byteChars_eq (format : String) : byteChars format = asBytes format.toList := by
  have hbytes : format.toUTF8 = format.toList.utf8Encode := String.utf8Encode_toList.symm
  rw [byteChars, hbytes, List.utf8Encode, List.data_toByteArray, List.toList_toArray, asBytes]

private theorem asBytes_append : asBytes (left ++ right) = asBytes left ++ asBytes right := by
  rw [asBytes, List.flatMap_append, List.map_append]
  rfl

/-- A single byte stands for itself. -/
private theorem asBytes_singleton (hc : c.toNat < 128) : asBytes [c] = [c] := by
  have hchar : Char.ofUInt8 c.val.toUInt8 = c := by
    have hbyte : (Char.ofUInt8 c.val.toUInt8).toNat = c.val.toUInt8.toNat := rfl
    refine Char.toNat_inj.mp ?_
    rw [hbyte, UInt32.toNat_toUInt8]
    exact Nat.mod_eq_of_lt (Nat.lt_trans hc (by decide))
  rw [asBytes, List.flatMap_singleton, String.utf8EncodeChar_eq_singleton (utf8Size_eq_one hc),
    List.map_singleton, hchar]

private theorem asBytes_cons (hc : c.toNat < 128) : asBytes (c :: text) = c :: asBytes text := by
  rw [← List.singleton_append, asBytes_append, asBytes_singleton hc]
  rfl

/-- Single bytes stand for themselves. -/
private theorem asBytes_eq_self (h : ∀ c ∈ text, c.toNat < 128) : asBytes text = text := by
  induction text with
  | nil => rfl
  | cons c text ih =>
    obtain ⟨hc, htext⟩ := List.forall_mem_cons.mp h
    rw [asBytes_cons hc, ih htext]

private theorem leadByte_eq_self (hc : c.toNat < 128) : leadByte c = c := by
  rw [leadByte, asBytes_singleton hc]
  rfl

/-- The bytes of a text start with the first one of its first character. -/
private theorem exists_asBytes_cons (c : Char) (text : List Char) :
    ∃ tail, asBytes (c :: text) = leadByte c :: tail := by
  obtain ⟨byte, bytes, hbytes⟩ := List.exists_cons_of_ne_nil (@String.utf8EncodeChar_ne_nil c)
  have hfirst : asBytes [c] = Char.ofUInt8 byte :: bytes.map Char.ofUInt8 := by
    rw [asBytes, List.flatMap_singleton, hbytes, List.map_cons]
  refine ⟨bytes.map Char.ofUInt8 ++ asBytes text, ?_⟩
  rw [← List.singleton_append, asBytes_append, leadByte, hfirst]
  rfl

/-- The first byte of a character that has several is no single byte. -/
private theorem le_toNat_leadByte (hc : 128 ≤ c.toNat) : 128 ≤ (leadByte c).toNat := by
  obtain ⟨byte, bytes, hbytes⟩ := List.exists_cons_of_ne_nil (@String.utf8EncodeChar_ne_nil c)
  have hlead : (leadByte c).toNat = byte.toNat := by
    rw [leadByte, asBytes, List.flatMap_singleton, hbytes]
    rfl
  have hlarge : ¬ c.val.toNat ≤ 127 := Nat.not_le_of_lt hc
  rw [hlead]
  rw [String.utf8EncodeChar] at hbytes
  simp only [if_neg hlarge] at hbytes
  -- the bits that are set in the first of two, three or four bytes
  split at hbytes
  · obtain ⟨rfl, -⟩ := List.cons.inj hbytes
    rw [UInt8.toNat_ofNat']
    omega
  · split at hbytes
    · obtain ⟨rfl, -⟩ := List.cons.inj hbytes
      rw [UInt8.toNat_ofNat']
      omega
    · obtain ⟨rfl, -⟩ := List.cons.inj hbytes
      rw [UInt8.toNat_ofNat']
      omega

/-! ### Characters of several bytes -/

/-- No letter has several bytes. -/
private theorem letter?_eq_none (hc : 128 ≤ c.toNat) : dialect.letter? c = none := by
  refine Option.eq_none_iff_forall_ne_some.mpr fun letter hletter => ?_
  exact Nat.not_lt_of_le hc (toNat_lt_of_letter? hletter)

private theorem ne_sign (hc : 128 ≤ c.toNat) (order : ByteOrder) : c ≠ order.sign := by
  rintro rfl
  exact Nat.not_lt_of_le hc (toNat_sign_lt order)

/-- No digit has several bytes. -/
theorem isDigit_eq_false (hc : 128 ≤ c.toNat) : c.isDigit = false :=
  Bool.eq_false_iff.mpr fun hdigit => Nat.not_lt_of_le hc (toNat_lt_of_isDigit hdigit)

/-- No token starts with a character of several bytes. -/
private theorem next?_unknown (hc : 128 ≤ c.toNat) : next? dialect (c :: text) position cursor =
    .error (.unknownToken c position) := by
  rw [next?_of_ne (ne_sign hc), readField, letter?_eq_none hc]
  rfl

/-! ### Reading bytes -/

end Format

open Format (leadByte)

/-- The failure of reading bytes, which names the first byte of an unknown token. -/
def BuildError.inBytes : BuildError → BuildError
  | .unknownToken token position => .unknownToken (leadByte token) position
  | failure => failure

private theorem BuildError.changesTokens_inBytes : ChangesTokens inBytes := by
  intro failure h
  cases failure with
  | unknownToken token position => exact absurd rfl (h token position)
  | _ => rfl

namespace Format

/-- The step with the bytes of the text behind it. -/
def Step.inBytes (step : Step) : Step := { step with rest := asBytes step.rest }

/-- The run over the bytes of a text. -/
def Run.inBytes (run : Run) : Run :=
  ⟨run.steps.map Step.inBytes, run.failure.map BuildError.inBytes⟩

/-- Bytes start with the digits that the text starts with. -/
private theorem digits_asBytes (text : List Char) :
    Text.digits (asBytes text) = Text.digits text := by
  induction text with
  | nil => rfl
  | cons c text ih =>
    rcases Nat.lt_or_ge c.toNat 128 with hc | hc
    · rw [Text.digits] at ih
      rw [asBytes_cons hc, Text.digits, Text.digits, List.takeWhile_cons, List.takeWhile_cons, ih]
      rfl
    · obtain ⟨tail, hcons⟩ := exists_asBytes_cons c text
      rw [hcons, Text.digits, Text.digits, List.takeWhile_cons, List.takeWhile_cons,
        isDigit_eq_false hc, isDigit_eq_false (le_toNat_leadByte hc)]
      rfl

private theorem suffix_asBytes (letter : Letter) (text : List Char) :
    suffix letter (asBytes text) = suffix letter text := by
  rw [suffix, suffix, digits_asBytes]

/-- The digits are as many bytes. -/
private theorem drop_suffix_asBytes (letter : Letter) (text : List Char) :
    (asBytes text).drop (suffix letter text).length =
      asBytes (text.drop (suffix letter text).length) := by
  have hdigits : asBytes (suffix letter text) = suffix letter text := by
    rcases suffix_eq_nil_or letter text with hnil | ⟨-, hd⟩
    · rw [hnil]
      rfl
    · exact asBytes_eq_self fun d hmem => toNat_lt_of_isDigit (hd d hmem)
  have hsplit : asBytes text =
      suffix letter text ++ asBytes (text.drop (suffix letter text).length) := by
    nth_rewrite 1 [List.prefix_iff_eq_append.mp (suffix_isPrefix letter text) |>.symm]
    rw [asBytes_append, hdigits]
  rw [hsplit, List.drop_left]

/-- A field is read from the bytes behind its letter as from the text, or fails for the same cause.
-/
private theorem readField_asBytes : readField dialect c (asBytes text) position cursor =
    (readField dialect c text position cursor).map Step.inBytes := by
  rw [readField, readField]
  cases dialect.letter? c with
  | none => rfl
  | some letter =>
    simp only [suffix_asBytes, drop_suffix_asBytes, Outcome.map_bind]
    rfl

/-- No failure behind a letter that is a single byte is another one for bytes. -/
private theorem mapError_readField (hc : c.toNat < 128) :
    (readField dialect c text position cursor).mapError BuildError.inBytes =
      readField dialect c text position cursor := by
  rw [readField]
  cases dialect.letter? c with
  | none =>
    change Except.error (BuildError.unknownToken (leadByte c) position) = _
    rw [leadByte_eq_self hc]
  | some letter =>
    have hchange := BuildError.changesTokens_inBytes
    simp only [Outcome.mapError_bind, mapError_sizeOf hchange, mapError_checkSize hchange,
      mapError_checkAligned hchange, mapError_advance hchange]
    rfl

/-- The next field of the bytes of a text is that of the text. -/
private theorem next?_asBytes : next? dialect (asBytes text) position cursor =
    match next? dialect text position cursor with
    | .error failure => .error failure.inBytes
    | .ok none => .ok none
    | .ok (some step) => .ok (some step.inBytes) := by
  induction text generalizing position cursor with
  | nil => rfl
  | cons c text ih =>
    rcases Nat.lt_or_ge c.toNat 128 with hc | hc
    · rw [asBytes_cons hc]
      rcases sign_or_ne c with ⟨order, rfl⟩ | hne
      · rw [next?_sign, next?_sign, ih]
      · have hfailure := @mapError_readField dialect c text position cursor hc
        rw [next?_of_ne hne, next?_of_ne hne, readField_asBytes]
        cases hread : readField dialect c text position cursor with
        | error failure =>
          rw [hread] at hfailure
          exact congrArg Except.error (Except.error.inj hfailure).symm
        | ok step => rfl
    · obtain ⟨tail, hcons⟩ := exists_asBytes_cons c text
      rw [hcons, next?_unknown hc, next?_unknown (le_toNat_leadByte hc)]
      rfl

/-- The run over the bytes of a text is that over the text. -/
theorem run_asBytes (dialect : Dialect) (text : List Char) (position : Nat) (cursor : Cursor) :
    run dialect (asBytes text) position cursor =
      (run dialect text position cursor).inBytes := by
  fun_induction run dialect text position cursor with
  | case1 text position cursor failure hnext =>
    rw [run_eq, next?_asBytes, hnext]
    rfl
  | case2 text position cursor hnext =>
    rw [run_eq, next?_asBytes, hnext]
    rfl
  | case3 text position cursor step hnext rest ih =>
    rw [run_eq, next?_asBytes, hnext]
    exact congrArg (fun run : Run => (⟨step.inBytes :: run.steps, run.failure⟩ : Run)) ih

end Format

end BinaryLayout
