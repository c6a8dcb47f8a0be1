import BinaryLayout.Proofs.InPlace

/-!
# Bit strings, bit fields and integers agree

A bit field is read as the number of its bits in the bit string of the target, and storing it puts
other bits in their place. Which causes keep it from being read keep it from being stored, and then
the target stays as it was (`field_codec_on_bits`).

An integer with its most significant byte first is the bit field of its bytes, and with its least
significant byte first it is the same with its bytes swapped (`word_codecs_agree`). Both are read
off the bits: swapping the bytes of a number puts its digits in order, eight by eight
(`toBits_swapBytes`), and what is stored in a segment is read back from it.
-/

namespace BinaryLayout.Bytes

open InPlace (allOrNothing)

/-! ### Stores at the front of a target -/

/-- Storing an integer at the front of a target is made as a whole or not at all. -/
theorem on_storeWord (target : List UInt8) (value size : Nat) (order : ByteOrder) :
    (storeWord 0 value size order).on target =
      some (allOrNothing target (writeWord value size order target)) := by
  rw [(storeWord_settles target 0 value size order).eq_allOrNothing trivial, List.drop_zero,
    List.take_zero]
  cases writeWord value size order target <;> rfl

/-- Storing a bit field at the front of a target is made as a whole or not at all. -/
theorem on_storeField (target : List UInt8) (value width bitOffset : Nat) :
    (storeField 0 value width bitOffset).on target =
      some (allOrNothing target (writeField value width bitOffset target)) := by
  rw [(storeField_settles target 0 value width bitOffset).eq_allOrNothing trivial, List.drop_zero,
    List.take_zero]
  cases writeField value width bitOffset target <;> rfl

/-! ### Bit fields -/

section Field

variable {width bitOffset : Nat} {target : List UInt8}

/-- Reading a bit field succeeds as soon as it passes its check. -/
private theorem readField_eq_map (width bitOffset : Nat) (target : List UInt8) :
    readField width bitOffset target = (checkField width bitOffset target.length).map fun _ =>
      ofBits (segmentBits (bits target) bitOffset width) := by
  cases hcheck : checkField width bitOffset target.length with
  | error cause =>
    rw [readField, hcheck]
    rfl
  | ok =>
    obtain ⟨hw, ho, ha⟩ := checkField_eq_ok_iff.mp hcheck
    exact readField_eq_ok hw ho ha

/-- A bit field that is not read is not stored, for the same cause. -/
private theorem writeField_eq_error {cause : AccessError}
    (h : readField width bitOffset target = .error cause) (value : Nat) :
    writeField value width bitOffset target = .error cause.toStoreError := by
  rw [readField_eq_map] at h
  cases hcheck : checkField width bitOffset target.length with
  | error cause' =>
    rw [hcheck] at h
    obtain rfl := Except.error.inj h
    rw [writeField, hcheck]
    rfl
  | ok =>
    rw [hcheck] at h
    cases h

/-- A bit field that is read is stored by replacing its bits. -/
private theorem exists_writeField {number : Nat} (h : readField width bitOffset target = .ok number)
    (value : Nat) :
    ∃ target', writeField value width bitOffset target = .ok target' ∧
      bits target' = replaceBits (bits target) bitOffset (toBits width value) := by
  rw [readField_eq_map] at h
  obtain ⟨_, hcheck, -⟩ := Outcome.map_eq_ok_iff.mp h
  obtain ⟨hw, ho, ha⟩ := checkField_eq_ok_iff.mp hcheck
  exact writeField_eq_ok value hw ho ha

/-- A bit field of one to sixty-four bits that starts in the first byte and ends in the target is
the number of its bits in the bit string of the target, and reading fails otherwise, for the first
cause there is. Storing fails for the same causes, with the target as it was; otherwise the bits of
the field become the lowest digits of the value, and all others stay. -/
theorem field_codec_on_bits (width bitOffset : Nat) (target : List UInt8) :
    readField width bitOffset target =
        (if width < 1 ∨ 64 < width then .error (.badWidth width)
        else if 7 < bitOffset then .error (.badBitOffset bitOffset)
        else if target.length < (width + bitOffset + 7) / 8 then
          .error (.tooShort ((width + bitOffset + 7) / 8) target.length)
        else .ok (ofBits (segmentBits (bits target) bitOffset width))) ∧
      (∀ cause, readField width bitOffset target = .error cause → ∀ value,
        writeField value width bitOffset target = .error cause.toStoreError ∧
        (storeField 0 value width bitOffset).on target =
          some (.error cause.toStoreError, target)) ∧
      ∀ number, readField width bitOffset target = .ok number → ∀ value, ∃ target',
        writeField value width bitOffset target = .ok target' ∧
        (storeField 0 value width bitOffset).on target = some (.ok (), target') ∧
        bits target' = replaceBits (bits target) bitOffset (toBits width value) := by
  refine ⟨?_, ?_, ?_⟩
  · rw [readField_eq_map, checkField, span, Extent.bytesFor, maxFieldWidth]
    split_ifs <;> rfl
  · intro cause h value
    have hwrite := writeField_eq_error h value
    have hstore := on_storeField target value width bitOffset
    rw [hwrite] at hstore
    exact ⟨hwrite, hstore⟩
  · intro number h value
    obtain ⟨target', hwrite, hbits⟩ := exists_writeField h value
    have hstore := on_storeField target value width bitOffset
    rw [hwrite] at hstore
    exact ⟨target', hwrite, hstore, hbits⟩

example : readField 64 7 [0x01, 0, 0, 0, 0, 0, 0, 0, 0x80] = .ok 0x8000000000000040 := by decide

end Field

/-! ### Swapped bytes -/

/-- Swapping the bytes of a number puts its digits, eight by eight, in the other order. -/
private theorem swapBytes_eq (n size : Nat) :
    swapBytes n size = ofBits (ByteOrder.little.arrangeBits (toBits (8 * size) n)) := by
  rw [← bits_ofNat, ← ByteOrder.bits_arrange, ofBits_bits]
  rfl

theorem toBits_swapBytes (size n : Nat) :
    toBits (8 * size) (swapBytes n size) = ByteOrder.little.arrangeBits (toBits (8 * size) n) := by
  have hdigits := toBits_ofBits (ByteOrder.little.arrangeBits (toBits (8 * size) n))
  rwa [ByteOrder.length_arrangeBits_toBits, ← swapBytes_eq] at hdigits

/-- Swapping twice loses what is above the bytes that are swapped, and nothing else. -/
theorem swapBytes_swapBytes (n size : Nat) :
    swapBytes (swapBytes n size) size = lowBits n (8 * size) := by
  rw [swapBytes_eq, toBits_swapBytes, ByteOrder.arrangeBits_arrangeBits _ (length_toBits _ _),
    ofBits_toBits]

/-- The number of digits with its bytes swapped is the number of the digits in the other order. -/
private theorem swapBytes_ofBits {string : List Bool} {size : Nat} (h : string.length = 8 * size) :
    swapBytes (ofBits string) size = ofBits (ByteOrder.little.arrangeBits string) := by
  rw [swapBytes_eq, ← h, toBits_ofBits]

/-! ### Integers -/

section Word

variable {size value : Nat} {order : ByteOrder} {target target' : List UInt8}

/-- An integer that does not pass its check is neither read nor written. -/
private theorem word_eq_error {cause : AccessError}
    (h : checkWord size target.length = .error cause) (order : ByteOrder) (value : Nat) :
    readWord size order target = .error cause ∧
      writeWord value size order target = .error cause.toStoreError := by
  rw [readWord, writeWord, h]
  exact ⟨rfl, rfl⟩

/-- An integer that is written is read back, and the bytes behind it stay. -/
theorem readWord_of_writeWord (h : writeWord value size order target = .ok target') :
    target'.length = target.length ∧ target'.drop size = target.drop size ∧
      readWord size order target' = .ok (lowBits value (8 * size)) := by
  obtain ⟨hs, ha⟩ := fits_of_writeWord h
  obtain ⟨hlength, hbits⟩ := bits_of_writeWord h
  have hdigits := order.length_arrangeBits_toBits size value
  have hfits : 0 + (order.arrangeBits (toBits (8 * size) value)).length ≤ (bits target).length := by
    rw [hdigits, length_bits]
    omega
  refine ⟨hlength, bits_inj ?_, ?_⟩
  · have hdrop := drop_replaceBits hfits
    rw [hdigits, Nat.zero_add] at hdrop
    rw [bits_drop, bits_drop, hbits, hdrop]
  · have hsegment := segmentBits_replaceBits hfits
    rw [hdigits] at hsegment
    rw [readWord_eq_ok order hs (by rwa [hlength]), hbits, hsegment,
      order.arrangeBits_arrangeBits (length_toBits _ _), ofBits_toBits]

/-- Storing what is read changes nothing. -/
theorem writeWord_readWord {number : Nat} (hs : 1 ≤ size ∧ size ≤ 8) (ha : size ≤ target.length)
    (h : readWord size order target = .ok number) :
    writeWord number size order target = .ok target := by
  have hfits : 0 + 8 * size ≤ (bits target).length := by
    rw [length_bits]
    omega
  have hsegment := length_segmentBits hfits
  obtain ⟨target', hwrite, hbits⟩ := writeWord_eq_ok number order hs ha
  -- the digits of what is read, put in order, are the bits that are there
  rw [readWord_eq_ok order hs ha] at h
  have hdigits : toBits (8 * size) number =
      order.arrangeBits (segmentBits (bits target) 0 (8 * size)) := by
    have hround := toBits_ofBits (order.arrangeBits (segmentBits (bits target) 0 (8 * size)))
    rwa [order.length_arrangeBits hsegment, hsegment, Except.ok.inj h] at hround
  rw [hdigits, order.arrangeBits_arrangeBits hsegment, replaceBits_segmentBits hfits] at hbits
  rw [hwrite, bits_inj hbits]

/-- With its most significant byte first an integer is the bit field of its bytes. -/
theorem readWord_big (hs : 1 ≤ size ∧ size ≤ 8) (ha : size ≤ target.length) :
    readWord size .big target = readField (8 * size) 0 target := by
  rw [readWord_eq_ok .big hs ha, readField_eq_ok (by omega) (by omega) (by omega)]
  rfl

theorem writeWord_big (hs : 1 ≤ size ∧ size ≤ 8) (ha : size ≤ target.length) :
    writeWord value size .big target = writeField value (8 * size) 0 target := by
  have hfits : 0 + 8 * size ≤ 8 * target.length := by omega
  obtain ⟨a, hword, hbits⟩ := writeWord_eq_ok value .big hs ha
  obtain ⟨b, hfield, hbits'⟩ := writeField_eq_ok value (by omega) (by omega) hfits
  rw [hword, hfield, bits_inj (hbits.trans hbits'.symm)]

/-- With its least significant byte first an integer is one whose bytes are swapped. -/
theorem readWord_little (hs : 1 ≤ size ∧ size ≤ 8) (ha : size ≤ target.length) :
    readWord size .little target = (readWord size .big target).map (swapBytes · size) := by
  have hsegment : (segmentBits (bits target) 0 (8 * size)).length = 8 * size :=
    length_segmentBits (by rw [length_bits]; omega)
  rw [readWord_eq_ok .little hs ha, readWord_eq_ok .big hs ha, ← swapBytes_ofBits hsegment]
  rfl

theorem writeWord_little (value size : Nat) (target : List UInt8) :
    writeWord value size .little target = writeWord (swapBytes value size) size .big target := by
  have hbytes : ByteOrder.little.arrange (ofNat size value) = ofNat size (swapBytes value size) :=
    bits_inj (by rw [ByteOrder.bits_arrange, bits_ofNat, bits_ofNat, toBits_swapBytes])
  rw [writeWord, writeWord, hbytes]
  rfl

/-- An integer of one to eight bytes at the front of a target that has them is the bit field of
these bytes, or with its least significant byte first the one whose bytes are swapped; both are read
and stored alike. Storing keeps all other bytes and is read back as the lowest bytes of the value,
storing what is read changes nothing, and swapping twice is keeping the lowest bytes. An integer of
another size or in a shorter target is neither read nor stored, and the target stays as it was. -/
theorem word_codecs_agree (size value : Nat) (target : List UInt8) :
    ((1 ≤ size ∧ size ≤ 8) ∧ size ≤ target.length →
      readWord size .big target = readField (8 * size) 0 target ∧
      readWord size .little target = (readWord size .big target).map (swapBytes · size) ∧
      (storeWord 0 value size .big).on target = (storeField 0 value (8 * size) 0).on target ∧
      (storeWord 0 value size .little).on target =
        (storeWord 0 (swapBytes value size) size .big).on target ∧
      (∀ order, ∃ number target', readWord size order target = .ok number ∧
        writeWord value size order target = .ok target' ∧
        (storeWord 0 value size order).on target = some (.ok (), target') ∧
        target'.length = target.length ∧ target'.drop size = target.drop size ∧
        readWord size order target' = .ok (value % patterns (8 * size)) ∧
        (storeWord 0 number size order).on target = some (.ok (), target)) ∧
      swapBytes (swapBytes value size) size = value % patterns (8 * size)) ∧
    (¬ ((1 ≤ size ∧ size ≤ 8) ∧ size ≤ target.length) → ∀ order, ∃ cause,
      readWord size order target = .error cause ∧
      writeWord value size order target = .error cause.toStoreError ∧
      (storeWord 0 value size order).on target = some (.error cause.toStoreError, target)) := by
  constructor
  · rintro ⟨hs, ha⟩
    have hbig : (storeWord 0 value size .big).on target =
        (storeField 0 value (8 * size) 0).on target := by
      rw [on_storeWord, on_storeField, writeWord_big hs ha]
    have hlittle : (storeWord 0 value size .little).on target =
        (storeWord 0 (swapBytes value size) size .big).on target := by
      rw [on_storeWord, on_storeWord, writeWord_little]
    refine ⟨readWord_big hs ha, readWord_little hs ha, hbig, hlittle, ?_,
      swapBytes_swapBytes value size⟩
    intro order
    obtain ⟨target', hwrite, -⟩ := writeWord_eq_ok value order hs ha
    obtain ⟨hlength, hdrop, hback⟩ := readWord_of_writeWord hwrite
    have hread := readWord_eq_ok order hs ha
    have hstore := on_storeWord target value size order
    have hsame := on_storeWord target
      (ofBits (order.arrangeBits (segmentBits (bits target) 0 (8 * size)))) size order
    rw [hwrite] at hstore
    rw [writeWord_readWord hs ha hread] at hsame
    exact ⟨_, target', hread, hwrite, hstore, hlength, hdrop, hback, hsame⟩
  · intro h order
    cases hcheck : checkWord size target.length with
    | ok => exact absurd (checkWord_eq_ok_iff.mp hcheck) h
    | error cause =>
      obtain ⟨hread, hwrite⟩ := word_eq_error hcheck order value
      have hstore := on_storeWord target value size order
      rw [hwrite] at hstore
      exact ⟨cause, hread, hwrite, hstore⟩

end Word

end BinaryLayout.Bytes
