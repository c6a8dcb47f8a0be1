import BinaryLayout.Text.DefaultIgnorable
import BinaryLayout.Text.GraphemeExtend
import BinaryLayout.Text.Printable

/-!
# Quoted text for messages

Characters and strings are shown to people between quotes, so that every character can be told
apart: the usual control characters have a two-character escape, the backslash and the quote in
use are escaped by a backslash, and a character that could not be seen on its own, because it is
not printable, is ignorable, or is drawn on the character before it, is written as its code point
in hexadecimal digits between braces. All other characters are written as they are.

So no two characters are written alike (`escaped_injective`), and nothing in a quoted text is hidden
(`isVisible_of_mem_quoted`).
-/

namespace BinaryLayout.Text

/-- The apostrophe, which quotes a single character. -/
def apostrophe : Char := '\x27'

/-- A character can be seen on its own. -/
def isVisible (c : Char) : Bool := isPrintable c && !isDefaultIgnorable c && !isCombining c

/-- The code point of a character in lower-case hexadecimal digits between braces. -/
def codePointEscape (c : Char) : List Char :=
  ['\\', 'u', '\x7b'] ++ Nat.toDigits 16 c.toNat ++ ['\x7d']

/-- A character as it stands inside text quoted by `quote`. -/
def escaped (quote c : Char) : List Char :=
  if c = '\x00' then ['\\', '0']
  else if c = '\t' then ['\\', 't']
  else if c = '\r' then ['\\', 'r']
  else if c = '\n' then ['\\', 'n']
  else if c = '\\' ∨ c = quote then ['\\', c]
  else if isVisible c then [c]
  else codePointEscape c

/-- A single character between apostrophes. -/
def quotedChar (c : Char) : String :=
  String.ofList (apostrophe :: escaped apostrophe c ++ [apostrophe])

/-- A text between double quotes. -/
def quoted (text : String) : String :=
  String.ofList ('"' :: text.toList.flatMap (escaped '"') ++ ['"'])

/-! ### What escapes show -/

section

variable {quote c d : Char}

/-- The characters of ASCII from the space to the tilde can be seen: what cannot starts with the
delete character, but for the control characters before them. -/
theorem isVisible_of_ascii (h : 0x20 ≤ c.toNat ∧ c.toNat < 0x7f) : isVisible c = true := by
  have hcontrols : inRanges unprintableRanges c.toNat =
      ((0x00 ≤ c.toNat && c.toNat ≤ 0x1f) || inRanges unprintableRanges.tail c.toNat) := rfl
  have hbehind : inRanges unprintableRanges.tail c.toNat = false :=
    inRanges_of_lt (show increasesFrom 0x7f _ = true by decide +kernel) h.2
  have hignorable : isDefaultIgnorable c = false :=
    inRanges_of_lt (show increasesFrom 0x7f _ = true by decide +kernel) h.2
  have hextending : isGraphemeExtend c = false :=
    inRanges_of_lt (show increasesFrom 0x7f _ = true by decide +kernel) h.2
  rw [isVisible, isPrintable, isCombining, hcontrols, hbehind, hignorable, hextending]
  simp
  omega

/-- The digits of a number below the base are one digit, and those of others go on behind it. -/
private theorem toDigits_eq (n : Nat) :
    Nat.toDigits 16 n = (if n < 16 then [] else Nat.toDigits 16 (n / 16)) ++
      [Nat.digitChar (n % 16)] := by
  split
  case isTrue h => rw [Nat.toDigits_of_lt_base h, Nat.mod_eq_of_lt h, List.nil_append]
  case isFalse h => exact Nat.toDigits_of_base_le (by decide) (by omega)

/-- Hexadecimal digits are told apart. -/
private theorem digitChar_inj : ∀ i < 16, ∀ j < 16, Nat.digitChar i = Nat.digitChar j → i = j := by
  decide

private theorem toDigits_inj {m n : Nat} (h : Nat.toDigits 16 m = Nat.toDigits 16 n) : m = n := by
  induction m using Nat.strongRecOn generalizing n with
  | ind m ih =>
    rw [toDigits_eq m, toDigits_eq n] at h
    obtain ⟨hhigh, hlow⟩ := List.append_inj' h rfl
    have hdigit : m % 16 = n % 16 :=
      digitChar_inj _ (Nat.mod_lt _ (by decide)) _ (Nat.mod_lt _ (by decide))
        (List.head_eq_of_cons_eq hlow)
    by_cases hm : m < 16
    · by_cases hn : n < 16
      · rwa [Nat.mod_eq_of_lt hm, Nat.mod_eq_of_lt hn] at hdigit
      · rw [if_pos hm, if_neg hn] at hhigh
        exact absurd hhigh.symm Nat.toDigits_ne_nil
    · by_cases hn : n < 16
      · rw [if_neg hm, if_pos hn] at hhigh
        exact absurd hhigh Nat.toDigits_ne_nil
      · rw [if_neg hm, if_neg hn] at hhigh
        have := ih (m / 16) (by omega) hhigh
        omega

private theorem isVisible_of_mem_toDigits {n : Nat} (h : d ∈ Nat.toDigits 16 n) :
    isVisible d = true := by
  have hdigits : ∀ i < 16, 0x20 ≤ (Nat.digitChar i).toNat ∧ (Nat.digitChar i).toNat < 0x7f := by
    decide
  induction n using Nat.strongRecOn with
  | ind n ih =>
    rw [toDigits_eq, List.mem_append, List.mem_singleton] at h
    obtain h | rfl := h
    · split at h
      · cases h
      · exact ih (n / 16) (by omega) h
    · exact isVisible_of_ascii (hdigits _ (Nat.mod_lt n (by decide)))

/-- The character behind the backslash in an escape of two characters. -/
private def shortEscape? (quote c : Char) : Option Char :=
  if c = '\x00' then some '0'
  else if c = '\t' then some 't'
  else if c = '\r' then some 'r'
  else if c = '\n' then some 'n'
  else if c = '\\' ∨ c = quote then some c
  else none

private theorem escaped_of_short {e : Char} (h : shortEscape? quote c = some e) :
    escaped quote c = ['\\', e] := by
  grind [shortEscape?, escaped]

private theorem escaped_of_long (h : shortEscape? quote c = none) :
    escaped quote c = if isVisible c then [c] else codePointEscape c := by
  grind [shortEscape?, escaped]

/-- Short escapes are read back from the character behind the backslash. -/
private theorem eq_of_shortEscape? (hq : quote = '"' ∨ quote = apostrophe) {e : Char}
    (h : shortEscape? quote c = some e) :
    c = if e = '0' then '\x00' else if e = 't' then '\t' else if e = 'r' then '\r'
      else if e = 'n' then '\n' else e := by
  rw [apostrophe] at hq
  grind [shortEscape?]

private theorem isVisible_of_shortEscape? (hq : isVisible quote = true) {e : Char}
    (h : shortEscape? quote c = some e) : isVisible e = true := by
  have hzero : isVisible '0' = true := isVisible_of_ascii (by decide)
  have hletters : isVisible 't' = true ∧ isVisible 'r' = true ∧ isVisible 'n' = true :=
    ⟨isVisible_of_ascii (by decide), isVisible_of_ascii (by decide),
      isVisible_of_ascii (by decide)⟩
  have hmark : isVisible '\\' = true := isVisible_of_ascii (by decide)
  grind [shortEscape?]

private theorem two_lt_length_codePointEscape (c : Char) : 2 < (codePointEscape c).length := by
  simp [codePointEscape]

private theorem codePointEscape_inj (h : codePointEscape c = codePointEscape d) : c = d := by
  have hdigits := List.append_cancel_left (List.append_cancel_right h)
  exact Char.toNat_inj.mp (toDigits_inj hdigits)

/-- Every character of an escape can be seen, if the quote can. -/
theorem isVisible_of_mem_escaped (hq : isVisible quote = true) (h : d ∈ escaped quote c) :
    isVisible d = true := by
  have hmark : isVisible '\\' = true := isVisible_of_ascii (by decide)
  cases hshort : shortEscape? quote c with
  | some e =>
    have he : isVisible e = true := isVisible_of_shortEscape? hq hshort
    rw [escaped_of_short hshort] at h
    obtain rfl | rfl : d = '\\' ∨ d = e := by simpa using h
    · exact hmark
    · exact he
  | none =>
    rw [escaped_of_long hshort] at h
    split at h
    case isTrue hvisible =>
      obtain rfl : d = c := by simpa using h
      exact hvisible
    case isFalse =>
      obtain rfl | rfl | rfl | hdigit | rfl :
          d = '\\' ∨ d = 'u' ∨ d = '\x7b' ∨ d ∈ Nat.toDigits 16 c.toNat ∨ d = '\x7d' := by
        simpa [codePointEscape, or_assoc] using h
      · exact hmark
      · exact isVisible_of_ascii (by decide)
      · exact isVisible_of_ascii (by decide)
      · exact isVisible_of_mem_toDigits hdigit
      · exact isVisible_of_ascii (by decide)

/-- No two characters are written alike between quotes. -/
theorem escaped_injective (hq : quote = '"' ∨ quote = apostrophe)
    (h : escaped quote c = escaped quote d) : c = d := by
  have hlength := congrArg List.length h
  have hc := two_lt_length_codePointEscape c
  have hd := two_lt_length_codePointEscape d
  -- the three kinds of escapes differ in length
  cases hleft : shortEscape? quote c with
  | some e =>
    rw [escaped_of_short hleft] at h hlength
    cases hright : shortEscape? quote d with
    | some f =>
      rw [escaped_of_short hright] at h
      obtain rfl : e = f := by simpa using h
      rw [eq_of_shortEscape? hq hleft, ← eq_of_shortEscape? hq hright]
    | none =>
      rw [escaped_of_long hright] at hlength
      grind
  | none =>
    rw [escaped_of_long hleft] at h hlength
    cases hright : shortEscape? quote d with
    | some f =>
      rw [escaped_of_short hright] at hlength
      grind
    | none =>
      rw [escaped_of_long hright] at h hlength
      cases hcv : isVisible c <;> cases hdv : isVisible d <;>
        simp only [hcv, hdv, if_true, Bool.false_eq_true, if_false] at h hlength
      · exact codePointEscape_inj h
      · grind
      · grind
      · simpa using h

/-- Nothing in a quoted text is hidden. -/
theorem isVisible_of_mem_quoted {text : String} (h : d ∈ (quoted text).toList) :
    isVisible d = true := by
  have hquote : isVisible '"' = true := isVisible_of_ascii (by decide)
  obtain rfl | ⟨c, -, hc⟩ : d = '"' ∨ ∃ c ∈ text.toList, d ∈ escaped '"' c := by
    simpa [quoted, or_comm, or_assoc] using h
  · exact hquote
  · exact isVisible_of_mem_escaped hquote hc

/-- A quoted character is known from what is shown for it. -/
theorem quotedChar_injective (h : quotedChar c = quotedChar d) : c = d :=
  escaped_injective (.inr rfl)
    (List.append_cancel_right (List.tail_eq_of_cons_eq (String.ofList_injective h)))

end

example : escaped '"' '\u0301' = ['\\', 'u', '\x7b', '3', '0', '1', '\x7d'] := by decide +kernel

example : escaped '"' 'é' = ['é'] ∧ escaped '"' '\n' = ['\\', 'n'] := by decide +kernel

end BinaryLayout.Text
