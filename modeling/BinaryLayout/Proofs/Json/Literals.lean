import BinaryLayout.Json.Reader
import BinaryLayout.Json.Writer
import BinaryLayout.Proofs.Text.Decimal

/-!
# Strings and numbers are read back

A text between quotes is read as that text (`readText_flatMap`): every character of it is written in
such a way that the reader takes it as one piece, and the piece stands for the character. A number
literal is read part by part (`readNumber_write`). Its last digit does not tell that it is the last
one, so that this depends on what stands behind the literal; in a document that is nothing, or a
character that parts documents (`EndsDocument`).
-/

namespace BinaryLayout.Json

variable {rest : List Char}

/-! ### Strings -/

/-- The hexadecimal digits of the writer are those of the reader. -/
private theorem hexDigit?_digitChar {n : Nat} (h : n < 16) :
    hexDigit? (Nat.digitChar n) = some n := by
  decide +revert

/-- A number of two hexadecimal digits is read back behind two zeros. -/
private theorem codeUnit?_digitChar {n : Nat} (h : n < 256) :
    codeUnit? '0' '0' (Nat.digitChar (n / 16)) (Nat.digitChar (n % 16)) = some n := by
  have hzero : hexDigit? '0' = some 0 := rfl
  rw [codeUnit?, hzero, hexDigit?_digitChar (by omega), hexDigit?_digitChar (by omega)]
  simp only [Option.some.injEq]
  omega

/-- The piece stands for the character, whatever follows it. -/
def Piece.StandsFor (piece : Piece) (c : Char) : Prop :=
  ∀ pieces, textOfPieces (piece :: pieces) = (textOfPieces pieces).map (c :: ·)

private theorem Piece.char_standsFor (c : Char) : (Piece.char c).StandsFor c := fun _ => rfl

/-- A number below the surrogates stands for its character. -/
private theorem Piece.unit_standsFor {c : Char} (h : c.toNat < 0xD800) :
    (Piece.unit c.toNat).StandsFor c := by
  have hl : isLeading c.toNat = false := by
    rw [isLeading, Bool.and_eq_false_iff, decide_eq_false_iff_not]
    omega
  have ht : isTrailing c.toNat = false := by
    rw [isTrailing, Bool.and_eq_false_iff, decide_eq_false_iff_not]
    omega
  rintro (_ | ⟨_ | _, _⟩) <;> simp [textOfPieces, hl, ht, Char.ofNat_toNat]

/-- A short escape is read as the character that it stands for. -/
private theorem readPieces_short {c d : Char} (h : shortEscape? c = some d) (hu : c ≠ 'u')
    (cs : List Char) : readPieces ('\\' :: c :: cs) =
      (readPieces cs).map fun (pieces, rest) => (.char d :: pieces, rest) := by
  rw [readPieces, h]
  · cases readPieces cs <;> rfl
  · rintro _ _ _ _ _ rfl
    exact absurd rfl hu

/-- An escape with four hexadecimal digits is read as the number that they denote. -/
private theorem readPieces_unit {n : Nat} {a b c d : Char} (h : codeUnit? a b c d = some n)
    (cs : List Char) : readPieces ('\\' :: 'u' :: a :: b :: c :: d :: cs) =
      (readPieces cs).map fun (pieces, rest) => (.unit n :: pieces, rest) := by
  rw [readPieces, h]
  cases readPieces cs <;> rfl

/-- A character that needs no escape is read as it is. -/
private theorem readPieces_char {c : Char} (hq : c ≠ '"') (hs : c ≠ '\\') (hc : ¬ c.toNat < 0x20)
    (cs : List Char) : readPieces (c :: cs) =
      (readPieces cs).map fun (pieces, rest) => (.char c :: pieces, rest) := by
  rw [readPieces, if_neg (by simp [hs, hc])]
  · cases readPieces cs <;> rfl
  · exact hq
  · rintro _ _ _ _ _ rfl
    exact absurd rfl hs
  · rintro _ _ rfl
    exact absurd rfl hs

/-- A character as it is written is read as one piece, which stands for it. -/
private theorem readPieces_escapedChar (c : Char) : ∃ piece : Piece, piece.StandsFor c ∧
    ∀ cs, readPieces (escapedChar c ++ cs) =
      (readPieces cs).map fun (pieces, rest) => (piece :: pieces, rest) := by
  unfold escapedChar
  repeat' split
  -- the characters that have a short escape
  any_goals
    subst c
    exact ⟨_, Piece.char_standsFor _, readPieces_short rfl (by decide)⟩
  · exact ⟨_, Piece.unit_standsFor (by omega), readPieces_unit (codeUnit?_digitChar (by omega))⟩
  · exact ⟨_, Piece.char_standsFor c, readPieces_char ‹_› ‹_› ‹_›⟩

/-- A text as it is written starts with a quote, and ends with one before what stands behind it. -/
theorem writeText_append (text : String) (rest : List Char) :
    writeText text ++ rest = '"' :: (text.toList.flatMap escapedChar ++ '"' :: rest) := by
  rw [writeText, List.append_assoc, List.cons_append, List.singleton_append]

/-- A text between quotes is read as that text. -/
theorem readText_flatMap (text : String) (rest : List Char) :
    readText (text.toList.flatMap escapedChar ++ '"' :: rest) = some (some text, rest) := by
  suffices h : ∀ cs : List Char, ∃ pieces,
      readPieces (cs.flatMap escapedChar ++ '"' :: rest) = some (pieces, rest) ∧
        textOfPieces pieces = some cs by
    obtain ⟨pieces, hread, htext⟩ := h text.toList
    simp [readText, hread, htext]
  intro cs
  induction cs with
  | nil => exact ⟨[], rfl, rfl⟩
  | cons c cs ih =>
    obtain ⟨pieces, hread, htext⟩ := ih
    obtain ⟨piece, hpiece, hreads⟩ := readPieces_escapedChar c
    refine ⟨piece :: pieces, ?_, ?_⟩
    · rw [List.flatMap_cons, List.append_assoc, hreads, hread, Option.map_some]
    · rw [hpiece, htext, Option.map_some]

/-! ### Behind a document -/

/-- What stands behind a document in a longer text: nothing, or a character that parts documents. -/
def EndsDocument (rest : List Char) : Prop := ∀ c ∈ rest.head?, c = ',' ∨ c = ']' ∨ c = '\x7d'

theorem endsDocument_nil : EndsDocument [] := nofun

theorem endsDocument_cons {c : Char} (h : c = ',' ∨ c = ']' ∨ c = '\x7d') (cs : List Char) :
    EndsDocument (c :: cs) := by
  rintro _ hc
  obtain rfl := Option.some.inj hc
  exact h

/-- What ends a document does not lengthen a number. -/
private theorem EndsDocument.not_isDigit (h : EndsDocument rest) :
    ∀ c ∈ rest.head?, c.isDigit = false := by
  intro c hc
  rcases h c hc with rfl | rfl | rfl <;> rfl

/-! ### Numbers -/

/-- A fraction as it is written. -/
def fractionText (ds : List Char) : List Char := if ds.isEmpty then [] else '.' :: ds

/-- An integer as it is written. -/
def integerText (i : Int) : List Char :=
  (if i < 0 then ['-'] else []) ++ Nat.toDigits 10 i.natAbs

/-- An exponent as it is written. -/
def exponentText : Option Int → List Char
  | none => []
  | some e => 'e' :: integerText e

namespace Number

variable {n : Number}

/-- What stands for the digits of the fraction are digits. -/
def WellFormed (n : Number) : Prop := ∀ c ∈ n.fraction, c.isDigit = true

private theorem write_eq (n : Number) : n.write = (if n.negative then ['-'] else []) ++
    Nat.toDigits 10 n.whole ++ fractionText n.fraction ++ exponentText n.exponent := by
  obtain ⟨negative, whole, fraction, _ | e⟩ := n <;> rfl

/-- A literal starts with a minus sign or a digit. -/
theorem exists_write_eq_cons (n : Number) :
    ∃ c cs, n.write = c :: cs ∧ (c = '-' ∨ c.isDigit = true) := by
  obtain ⟨c, cs, hcs, hc⟩ := Text.exists_toDigits_eq_cons n.whole
  rw [write_eq, hcs]
  split
  · exact ⟨_, _, rfl, .inl rfl⟩
  · exact ⟨_, _, rfl, .inr hc⟩

end Number

/-- The sign of an integer is read apart from its digits. -/
private theorem readSign_append (i : Int) (rest : List Char) :
    readSign (integerText i ++ rest) = (decide (i < 0), Nat.toDigits 10 i.natAbs ++ rest) := by
  rw [integerText]
  split
  · rename_i hi
    simp [readSign, hi]
  · rename_i hi
    -- what comes first is a digit, and no sign
    obtain ⟨c, cs, hcs, hc⟩ := Text.exists_toDigits_eq_cons i.natAbs
    rw [hcs, readSign.eq_def]
    split
    · simp_all
    · simp_all
    · simp [hi]

private theorem readExponent_append (exponent : Option Int) (h : EndsDocument rest) :
    readExponent (exponentText exponent ++ rest) = some (exponent, rest) := by
  cases exponent with
  | none =>
    cases rest with
    | nil => rfl
    | cons c rest => rcases h c rfl with rfl | rfl | rfl <;> rfl
  | some e =>
    have hvalue : (if e < 0 then -(e.natAbs : Int) else e.natAbs) = e := by
      split <;> omega
    rw [exponentText, List.cons_append, readExponent, if_pos (.inl rfl), readSign_append]
    simp only [Text.digits_toDigits_append _ h.not_isDigit,
      Text.afterDigits_toDigits_append _ h.not_isDigit, Text.decimal_toDigits, List.isEmpty_iff,
      Nat.toDigits_ne_nil, if_false, decide_eq_true_eq, hvalue]

/-- An exponent, or what ends the document in its place, lengthens no fraction and starts none. -/
private theorem head?_exponentText (exponent : Option Int) (h : EndsDocument rest) :
    ∀ c ∈ (exponentText exponent ++ rest).head?, c.isDigit = false ∧ c ≠ '.' := by
  intro c hc
  cases exponent with
  | none => rcases h c hc with rfl | rfl | rfl <;> decide
  | some e =>
    obtain rfl := Option.some.inj hc
    decide

/-- The fraction of a literal is read back from what is written. -/
private theorem readFraction_append {ds : List Char} (hd : ∀ c ∈ ds, c.isDigit = true)
    (hr : ∀ c ∈ rest.head?, c.isDigit = false ∧ c ≠ '.') :
    readFraction (fractionText ds ++ rest) = some (ds, rest) := by
  have hdigit : ∀ c ∈ rest.head?, c.isDigit = false := fun c hc => (hr c hc).1
  cases ds with
  | nil =>
    change readFraction rest = _
    rw [readFraction.eq_def]
    split
    · exact absurd rfl (hr '.' rfl).2
    · rfl
  | cons d ds =>
    rw [fractionText, if_neg (by simp), List.cons_append, readFraction,
      Text.digits_append_of_forall hd hdigit,
      Text.afterDigits_append_of_forall hd hdigit]
    rfl

/-- A fraction, or what stands in its place, does not lengthen the number before it. -/
private theorem head?_fractionText (ds : List Char)
    (hr : ∀ c ∈ rest.head?, c.isDigit = false ∧ c ≠ '.') :
    ∀ c ∈ (fractionText ds ++ rest).head?, c.isDigit = false := by
  intro c hc
  cases ds with
  | nil => exact (hr c hc).1
  | cons d ds =>
    obtain rfl := Option.some.inj hc
    rfl

/-- A number is read back from what is written. -/
theorem readNumber_write {n : Number} (hn : n.WellFormed) (h : EndsDocument rest) :
    readNumber (n.write ++ rest) = some (n, rest) := by
  obtain ⟨negative, whole, fraction, exponent⟩ := n
  have hexponent := head?_exponentText exponent h
  have hfraction := head?_fractionText fraction hexponent
  -- no zero stands in front of other digits
  have hwhole : ((Nat.toDigits 10 whole).isEmpty || (Nat.toDigits 10 whole).head? == some '0' &&
      Nat.toDigits 10 whole != ['0']) = false := by
    have hne : Nat.toDigits 10 whole ≠ [] := Nat.toDigits_ne_nil
    by_cases hzero : (Nat.toDigits 10 whole).head? = some '0'
    · rw [Text.eq_zero_of_head?_toDigits hzero]
      rfl
    · simp [hne, hzero]
  have hunsigned : readUnsigned negative (Nat.toDigits 10 whole ++ (fractionText fraction ++
      (exponentText exponent ++ rest))) = some (⟨negative, whole, fraction, exponent⟩, rest) := by
    rw [readUnsigned, Text.digits_toDigits_append _ hfraction,
      Text.afterDigits_toDigits_append _ hfraction, readFraction_append hn hexponent]
    simp only [hwhole, readExponent_append exponent h, Text.decimal_toDigits]
    rfl
  rw [Number.write_eq]
  simp only [List.append_assoc]
  cases negative with
  | true => exact hunsigned
  | false =>
    obtain ⟨c, cs, hcs, hc⟩ := Text.exists_toDigits_eq_cons whole
    rw [hcs] at hunsigned ⊢
    change readNumber (c :: cs ++ _) = _
    rw [readNumber.eq_def]
    split
    · rename_i hminus
      obtain ⟨rfl, -⟩ := List.cons.inj hminus
      cases hc
    · exact hunsigned

end BinaryLayout.Json
