import BinaryLayout.Machine.Bytes
import BinaryLayout.Proofs.Bytes.Codec
import BinaryLayout.Proofs.Machine.Basic
import Mathlib.Data.Nat.Bitwise

/-!
# The codecs of a machine do not trap

Masking and moving the bits of words comes to cutting numbers apart and putting them together. A
field that is moved down and masked is `Bytes.extract`, and one that is masked out and put in again
is `Bytes.splice`: both have the same bits (`Bytes.testBit_splice`). A word that is moved up to its
highest bit and down again, with its sign kept, is `Bytes.signExtend`.

The bytes of a word that is turned around begin with what was its lowest bytes, so that moving it
down leaves those, reversed, and `Bytes.swapBytes` is what is left.

The checks before these operations keep them in range. A span has at most nine bytes, so that a
field of it is moved by less than a byte and its number is one of 128 bits; an integer has one to
eight bytes, so that it is moved by less than a word. So the codecs of a machine yield what the
codecs give, whatever the numbers that they are asked for. Swapping bytes has no check, and traps
outside of one to eight bytes (`swapBytes_traps`).
-/

namespace BinaryLayout

open Bytes (patterns lowBits extract splice)

namespace Bytes

variable {n word value width shift bits limit : Nat}

/-! ### Masks and shifts -/

private theorem patterns_eq (width : Nat) : patterns width = 2 ^ width := rfl

private theorem and_mask (n width : Nat) : n &&& (patterns width - 1) = lowBits n width :=
  Nat.and_two_pow_sub_one_eq_mod n width

/-- A word that is moved up within a longer one loses nothing. -/
private theorem lowBits_shiftLeft (hn : n < patterns width) (h : width + shift ≤ limit) :
    lowBits (n <<< shift) limit = n <<< shift := by
  refine lowBits_of_lt ?_
  calc n <<< shift = n * patterns shift := Nat.shiftLeft_eq n shift
    _ < patterns width * patterns shift := Nat.mul_lt_mul_of_pos_right hn (patterns_pos shift)
    _ = patterns (width + shift) := (patterns_add width shift).symm
    _ ≤ patterns limit := patterns_le_patterns h

/-- A single bit that is moved up within a word is a power of two. -/
theorem lowBits_one_shiftLeft (h : shift < limit) :
    lowBits (1 <<< shift) limit = patterns shift := by
  rw [lowBits_shiftLeft (show 1 < patterns 1 by decide) (by omega), Nat.one_shiftLeft,
    patterns_eq]

/-- A field that is moved down and masked is the one that is extracted. -/
private theorem and_mask_shiftRight (hw : width ≤ 64) :
    lowBits (n >>> shift) 64 &&& (patterns width - 1) = extract n shift width := by
  have hdvd : patterns width ∣ patterns 64 := Nat.pow_dvd_pow 2 hw
  rw [and_mask, extract, lowBits, lowBits, lowBits, Nat.mod_mod_of_dvd _ hdvd,
    Nat.shiftRight_eq_div_pow, patterns_eq shift]

/-! ### Bits one by one -/

private theorem testBit_lowBits (n width i : Nat) :
    (lowBits n width).testBit i = (decide (i < width) && n.testBit i) :=
  Nat.testBit_mod_two_pow n width i

/-- The bits of a field that is put into a number are those of the value, and all others stay. -/
theorem testBit_splice (n shift width value i : Nat) :
    (splice n shift width value).testBit i =
      if shift ≤ i ∧ i < shift + width then value.testBit (i - shift) else n.testBit i := by
  have hsum : splice n shift width value =
      2 ^ shift * (2 ^ width * (n / patterns (shift + width)) + lowBits value width) +
        lowBits n shift := by
    rw [splice, patterns_add, ← patterns_eq, ← patterns_eq]
    ring
  have hvalue : lowBits value width < 2 ^ width := Nat.mod_lt _ (patterns_pos _)
  have hlower : lowBits n shift < 2 ^ shift := Nat.mod_lt _ (patterns_pos _)
  rw [hsum, Nat.testBit_two_pow_mul_add _ hlower, Nat.testBit_two_pow_mul_add _ hvalue,
    testBit_lowBits, testBit_lowBits, patterns_eq, Nat.testBit_div_two_pow]
  -- the bit is below the field, in it, or above it
  rcases Nat.lt_or_ge i shift with hi | hi
  · simp [hi, Nat.not_le_of_lt hi]
  rcases Nat.lt_or_ge i (shift + width) with hw | hw
  · have hinside : i - shift < width := by omega
    simp [hi, hw, hinside, Nat.not_lt_of_le hi]
  · have habove : ¬ i - shift < width := by omega
    have hback : i - shift - width + (shift + width) = i := by omega
    simp [Nat.not_lt_of_le hi, Nat.not_lt_of_le hw, habove, hback]

/-- A number with a field masked out and a value put in is the one with the field replaced. -/
private theorem or_and_complement (hn : n < patterns limit) (h : width + shift ≤ limit)
    (value : Nat) :
    n &&& Machine.complement limit ((patterns width - 1) <<< shift) |||
      lowBits value width <<< shift = splice n shift width value := by
  refine Nat.eq_of_testBit_eq fun i => ?_
  rw [testBit_splice, Nat.testBit_or, Nat.testBit_and, Machine.complement, Nat.testBit_xor,
    Nat.testBit_shiftLeft, Nat.testBit_shiftLeft, testBit_lowBits, patterns_eq, patterns_eq,
    Nat.testBit_two_pow_sub_one, Nat.testBit_two_pow_sub_one]
  by_cases hfield : shift ≤ i ∧ i < shift + width
  · have hlimit : i < limit := by omega
    have hinside : i - shift < width := by omega
    simp [hfield, hlimit, hinside]
  · have houtside : (decide (shift ≤ i) && decide (i - shift < width)) = false := by
      rw [← Bool.decide_and, decide_eq_false_iff_not]
      omega
    rw [if_neg hfield, ← Bool.and_assoc, houtside, Bool.false_and, Bool.or_false, Bool.false_xor]
    -- the number has no bits above the limit, where the mask has none either
    rcases Nat.lt_or_ge i limit with hi | hi
    · rw [decide_eq_true hi, Bool.and_true]
    · rw [Nat.testBit_lt_two_pow (hn.trans_le (patterns_le_patterns hi)), Bool.false_and]

/-! ### Signs -/

/-- Multiples keep their sign when the number of patterns is multiplied as well. -/
private theorem bmod_mul {half factor : Nat} (hh : 0 < half) (hf : 0 < factor) (n : Int) :
    Int.bmod (n * factor) (2 * half * factor) = Int.bmod n (2 * half) * factor := by
  have hlow := Int.le_bmod (x := n) (m := 2 * half) (by omega)
  have hhigh := Int.bmod_lt (x := n) (m := 2 * half) (by omega)
  have hbounds : -(half : Int) ≤ Int.bmod n (2 * half) ∧ Int.bmod n (2 * half) < half := by omega
  have hfactor : (0 : Int) < factor := by omega
  have hlow := Int.mul_le_mul_of_nonneg_right hbounds.1 (Int.le_of_lt hfactor)
  have hhigh := Int.mul_lt_mul_of_pos_right hbounds.2 hfactor
  have hmodulus : ((2 * half * factor : Nat) : Int) = 2 * (half * factor) := by
    push_cast
    ring
  rw [Int.neg_mul] at hlow
  refine (Int.bmod_eq_iff (Nat.mul_pos (Nat.mul_pos Nat.two_pos hh) hf)).mpr ⟨?_, ?_, ?_⟩
  · omega
  · omega
  · rw [← Int.sub_mul, Nat.cast_mul]
    exact Int.mul_dvd_mul_right _ Int.dvd_bmod_sub_self

/-- A word that is moved up to the highest bit and down again has become signed. -/
private theorem shiftRight_toSigned (hb : 1 ≤ bits ∧ bits ≤ 64) :
    Machine.toSigned (lowBits (word <<< (64 - bits)) 64) >>> (64 - bits) =
      signExtend word bits := by
  have hbits : patterns bits = 2 * patterns (bits - 1) := by
    rw [← patterns_succ, Nat.sub_add_cancel hb.1]
  have hword : patterns 64 = 2 * patterns (bits - 1) * patterns (64 - bits) := by
    rw [← hbits, ← patterns_add, Nat.add_sub_cancel' hb.2]
  have hraised : Machine.toSigned (lowBits (word <<< (64 - bits)) 64) =
      signExtend word bits * patterns (64 - bits) := by
    rw [Machine.toSigned, signExtend, lowBits, Int.natCast_mod, Int.emod_bmod, Nat.shiftLeft_eq,
      Nat.cast_mul, hword, signExtend, hbits]
    exact bmod_mul (patterns_pos _) (patterns_pos _) word
  rw [hraised, Int.shiftRight_eq_div_pow]
  exact Int.mul_ediv_cancel _ (by exact_mod_cast (patterns_pos (64 - bits)).ne')

/-! ### Reversed bytes -/

/-- The bytes of a word are those of its upper part and then its lowest ones. -/
private theorem ofNat_add (upper lower n : Nat) :
    ofNat (upper + lower) n = ofNat upper (n / patterns (8 * lower)) ++ ofNat lower n := by
  refine bits_inj ?_
  rw [bits_append, bits_ofNat, bits_ofNat, bits_ofNat, Nat.mul_add, toBits_add]

/-- Bytes in front of others count as often as there are patterns of those. -/
private theorem toNat_append (left right : List UInt8) :
    toNat (left ++ right) = toNat left * patterns (8 * right.length) + toNat right := by
  rw [← ofBits_bits, bits_append, ofBits_append, ofBits_bits, ofBits_bits, length_bits]

/-- The lowest bytes of a word are the highest ones when its bytes are turned around. -/
private theorem shiftRight_reverseBytes {size : Nat} (hs : size ≤ 8) :
    Machine.reverseBytes word >>> (64 - 8 * size) = swapBytes word size := by
  obtain ⟨above, habove⟩ := Nat.exists_eq_add_of_le' hs
  have hword : ofNat 8 word = ofNat above (word / patterns (8 * size)) ++ ofNat size word := by
    rw [← ofNat_add, ← habove]
  have hshift : 64 - 8 * size = 8 * above := by omega
  have hrest : toNat (ofNat above (word / patterns (8 * size))).reverse < patterns (8 * above) := by
    refine (toNat_lt _).trans_eq ?_
    rw [List.length_reverse, length_ofNat]
  rw [Machine.reverseBytes, hword, List.reverse_append, toNat_append,
    List.length_reverse, length_ofNat, hshift, Nat.shiftRight_eq_div_pow, ← patterns_eq,
    Nat.mul_comm (toNat _), Nat.mul_add_div (patterns_pos _), Nat.div_eq_of_lt hrest, Nat.add_zero,
    swapBytes]

/-! ### Bytes behind an integer or a field -/

/-- Reading an integer looks at its bytes only. -/
theorem readWord_take (size : Nat) (order : ByteOrder) (target : List UInt8) :
    readWord size order (target.take size) = readWord size order target := by
  have hcheck : checkWord size (min size target.length) = checkWord size target.length := by
    rcases Nat.lt_or_ge target.length size with h | h
    · rw [Nat.min_eq_right (Nat.le_of_lt h)]
    · rw [Nat.min_eq_left h, checkWord, checkWord, if_neg (Nat.lt_irrefl size),
        if_neg (Nat.not_lt_of_le h)]
  rw [readWord, readWord, List.length_take, List.take_take, Nat.min_self, hcheck]

/-- Reading a bit field looks at the bytes of its span only. -/
theorem readField_take (width bitOffset : Nat) (target : List UInt8) :
    readField width bitOffset (target.take (span width bitOffset)) =
      readField width bitOffset target := by
  have hcheck : checkField width bitOffset (min (span width bitOffset) target.length) =
      checkField width bitOffset target.length := by
    rcases Nat.lt_or_ge target.length (span width bitOffset) with h | h
    · rw [Nat.min_eq_right (Nat.le_of_lt h)]
    · rw [Nat.min_eq_left h, checkField, checkField, if_neg (Nat.lt_irrefl (span width bitOffset)),
        if_neg (Nat.not_lt_of_le h)]
  rw [readField, readField, List.length_take, List.take_take, Nat.min_self, hcheck]

end Bytes

namespace Machine

variable {ε : Type} {width bitOffset bits : Nat} {target : List UInt8}

/-! ### Masks and spans -/

/-- A mask is made within the bits of a word, and has at most as many. -/
theorem yields_mask (bits : Nat) :
    Yields (mask bits : Machine ε Nat) (.ok (patterns (min bits 64) - 1)) := by
  rw [mask]
  split
  · rename_i h
    rw [Nat.min_eq_right h]
    exact yields_pure _
  · rename_i h
    have hpos := Bytes.patterns_pos bits
    refine (yields_within (by omega)).then ?_
    rw [Nat.min_eq_left (by omega), Bytes.lowBits_one_shiftLeft (by omega)]
    exact yields_within hpos

private theorem yields_mask_of_le (h : bits ≤ 64) :
    Yields (mask bits : Machine ε Nat) (.ok (patterns bits - 1)) := by
  have hmask : Yields (mask bits : Machine ε Nat) _ := yields_mask bits
  rwa [Nat.min_eq_left h] at hmask

/-- The span of a field is counted if its bits can be. -/
private theorem yields_span (h : width + bitOffset ≤ Extent.limit) :
    Yields (span width bitOffset : Machine ε Nat) (.ok (Bytes.span width bitOffset)) :=
  (yields_within h).then (yields_divCeil_eight h)

/-- A field that passes its check spans at most nine bytes. -/
private theorem span_le (hw : width ≤ 64) (ho : bitOffset ≤ 7) :
    Bytes.span width bitOffset ≤ 9 := by
  rw [Bytes.span, Extent.bytesFor]
  omega

/-- A field is moved by the bits behind it in its span. -/
private theorem yields_fieldShift (hw : width ≤ 64) (ho : bitOffset ≤ 7) :
    Yields (fieldShift width bitOffset (Bytes.span width bitOffset) : Machine ε Nat)
      (.ok (Bytes.fieldShift width bitOffset)) := by
  have hbounds := Bytes.span_bounds width bitOffset
  refine (yields_mul_eight (span_le hw ho)).then ?_
  exact (yields_within (by omega)).then (yields_within (by omega))

/-- The span is worked out after the numbers of the field have been checked. -/
private theorem yields_checkField (width bitOffset available : Nat) :
    Yields (checkField width bitOffset available)
      ((Bytes.checkField width bitOffset available).map fun _ => Bytes.span width bitOffset) := by
  rw [checkField, Bytes.checkField]
  split
  · exact yields_throw _
  split
  · exact yields_throw _
  · rename_i hw ho
    rw [Bytes.maxFieldWidth] at hw
    refine (yields_span (by rw [Extent.limit]; omega)).then ?_
    split
    · exact yields_throw _
    · exact yields_pure _

/-! ### Integers -/

/-- An integer is read as without a machine: it is checked before its bytes are read. -/
theorem yields_readWord (size : Nat) (order : ByteOrder) (target : List UInt8) :
    Yields (readWord size order target) (Bytes.readWord size order target) := by
  refine (yields_ofExcept _).bind fun _ hcheck => ?_
  obtain ⟨⟨hone, height⟩, hle⟩ := Bytes.checkWord_eq_ok_iff.mp hcheck
  exact yields_within ⟨hone, height, hle⟩

/-- An integer is written as without a machine: the mask before it makes it fit into its bytes. -/
theorem yields_writeWord (word size : Nat) (order : ByteOrder) (target : List UInt8) :
    Yields (writeWord word size order target) (Bytes.writeWord word size order target) := by
  refine (yields_ofExcept _).toStore.bind fun _ hcheck => ?_
  obtain ⟨⟨hone, height⟩, hle⟩ :=
    Bytes.checkWord_eq_ok_iff.mp (Outcome.mapError_eq_ok_iff.mp hcheck)
  refine (yields_mul_eight (by omega)).then ?_
  refine (yields_mask_of_le (by omega)).then ?_
  rw [Bytes.and_mask, ← Bytes.ofNat_lowBits]
  exact yields_within ⟨⟨hone, height, hle⟩, Nat.mod_lt _ (Bytes.patterns_pos _)⟩

/-- The sign of a word of up to eight bytes is found by moving it up and down. -/
theorem yields_signExtend (word : Nat) (hb : 1 ≤ bits ∧ bits ≤ 64) :
    Yields (signExtend word bits : Machine ε Int) (.ok (Bytes.signExtend word bits)) := by
  rw [← Bytes.shiftRight_toSigned hb]
  refine (yields_within hb.2).then ((yields_within ?_).then (yields_within ?_))
  · omega
  · omega

/-- The bytes of an integer are swapped. -/
theorem yields_swapBytes (word : Nat) {size : Nat} (hs : 1 ≤ size ∧ size ≤ 8) :
    Yields (swapBytes word size : Machine ε Nat) (.ok (Bytes.swapBytes word size)) := by
  rw [← Bytes.shiftRight_reverseBytes hs.2]
  refine (yields_mul_eight (by omega)).then ((yields_within ?_).then (yields_within ?_))
  · omega
  · omega

example : Yields (swapBytes 0x010203 3 : Machine Empty Nat) (.ok 0x030201) := rfl

/-- No check comes before the bytes are swapped: it traps for no bytes, where a word would be moved
by all its bits, and for more than eight, where more bits are taken off than a word has. -/
theorem swapBytes_traps (word : Nat) {size : Nat} (hs : ¬ (1 ≤ size ∧ size ≤ 8)) :
    (swapBytes word size : Machine ε Nat).run = none := by
  rcases Nat.eq_zero_or_pos size with rfl | hpos
  · refine (yields_mul_eight (by decide)).then_trap ((yields_within (by decide)).then_trap ?_)
    exact within_traps (by decide)
  · by_cases hbits : size * 8 ≤ Extent.limit
    · exact (yields_within hbits).then_trap (bind_traps (within_traps (by omega)))
    · exact bind_traps (within_traps hbits)

/-! ### Bit fields -/

/-- A field that passes the check has a span that can be read as a number of 128 bits, and is moved
by less than a byte. -/
private theorem span_readable (hcheck : Bytes.checkField width bitOffset target.length = .ok ()) :
    (1 ≤ Bytes.span width bitOffset ∧ Bytes.span width bitOffset ≤ 16 ∧
        Bytes.span width bitOffset ≤ target.length) ∧
      width + Bytes.fieldShift width bitOffset ≤ 128 ∧ Bytes.fieldShift width bitOffset < 8 := by
  obtain ⟨⟨hone, hw⟩, ho, hfits⟩ := Bytes.checkField_eq_ok_iff.mp hcheck
  have hbounds := Bytes.span_bounds width bitOffset
  have hspan := span_le hw ho
  have hle := Bytes.span_le_iff.mpr hfits
  have hshift : Bytes.fieldShift width bitOffset < 8 := by
    rw [Bytes.span, Extent.bytesFor] at hbounds
    omega
  exact ⟨⟨by omega, by omega, hle⟩, by omega, hshift⟩

/-- A bit field is read as without a machine. -/
theorem yields_readField (width bitOffset : Nat) (target : List UInt8) :
    Yields (readField width bitOffset target) (Bytes.readField width bitOffset target) := by
  refine (yields_checkField width bitOffset target.length).bind_map fun _ hcheck => ?_
  obtain ⟨⟨-, hw⟩, ho, -⟩ := Bytes.checkField_eq_ok_iff.mp hcheck
  obtain ⟨hspan, -, hshift⟩ := span_readable hcheck
  refine (yields_within hspan).then ?_
  refine (yields_fieldShift hw ho).then ?_
  refine (yields_within (by omega)).then ?_
  refine (yields_mask_of_le hw).then ?_
  rw [Bytes.and_mask_shiftRight hw]
  exact yields_pure _

/-- A bit field is written as without a machine. -/
theorem yields_writeField (word width bitOffset : Nat) (target : List UInt8) :
    Yields (writeField word width bitOffset target)
      (Bytes.writeField word width bitOffset target) := by
  have hspan := (yields_checkField width bitOffset target.length).toStore
  rw [Outcome.mapError_map] at hspan
  refine hspan.bind_map fun _ hcheck => ?_
  rw [Outcome.mapError_eq_ok_iff] at hcheck
  obtain ⟨⟨-, hw⟩, ho, hfits⟩ := Bytes.checkField_eq_ok_iff.mp hcheck
  obtain ⟨hreadable, hlimit, hshift⟩ := span_readable hcheck
  refine (yields_fieldShift hw ho).then ?_
  refine (yields_mask_of_le hw).then ?_
  -- the mask is moved up, the span is read, and the word is moved up
  refine (yields_within (by omega)).then ?_
  refine (yields_within hreadable).then ?_
  refine (yields_within (by omega)).then ?_
  have hcovered : Bytes.toNat (target.take (Bytes.span width bitOffset)) < patterns 128 := by
    refine (Bytes.toNat_lt _).trans_le (Bytes.patterns_le_patterns ?_)
    rw [List.length_take]
    omega
  have hmask : patterns width - 1 < patterns width :=
    Nat.sub_lt (Bytes.patterns_pos width) Nat.one_pos
  have hlow : lowBits word width < patterns width := Nat.mod_lt _ (Bytes.patterns_pos width)
  rw [Bytes.and_mask, Bytes.lowBits_shiftLeft hmask hlimit, Bytes.lowBits_shiftLeft hlow hlimit]
  -- what is written is the number of the span with the field replaced
  change Yields (writeNumber 16 target (_ ||| _) _ .big) _
  rw [ByteOrder.arrange, Bytes.or_and_complement hcovered hlimit]
  exact yields_within ⟨hreadable, Bytes.splice_span_lt hfits word⟩

end Machine

end BinaryLayout
