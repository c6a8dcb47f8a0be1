import BinaryLayout.Proofs.Bytes.BitString
import BinaryLayout.Proofs.Outcome
import BinaryLayout.View.Sequential

/-!
# The codecs on bit strings

What reading and writing of integers and bit fields do to the bits of a target. An integer of `size`
bytes is denoted by the first `8 * size` bits, its bytes put in order; a bit field by the `width`
bits from its bit on. Writing replaces just these bits (`replaceBits`), so that everything that is
known of replaced segments is known of targets after a write.
-/

namespace BinaryLayout

namespace ByteOrder

/-- The bits of bytes put in order are the bits put in order. -/
theorem bits_arrange (order : ByteOrder) (target : List UInt8) :
    Bytes.bits (order.arrange target) = order.arrangeBits (Bytes.bits target) := by
  cases order with
  | big => rfl
  | little =>
    rw [arrange, arrangeBits, Bytes.octets_bits, ← List.map_reverse]
    rfl

/-- Putting the bits of whole bytes in order twice changes nothing. -/
theorem arrangeBits_arrangeBits (order : ByteOrder) {string : List Bool} {size : Nat}
    (h : string.length = 8 * size) : order.arrangeBits (order.arrangeBits string) = string := by
  obtain ⟨target, -, rfl⟩ := Bytes.exists_bits h
  rw [← bits_arrange, ← bits_arrange, arrange_arrange]

theorem length_arrangeBits (order : ByteOrder) {string : List Bool} {size : Nat}
    (h : string.length = 8 * size) : (order.arrangeBits string).length = string.length := by
  obtain ⟨target, -, rfl⟩ := Bytes.exists_bits h
  rw [← bits_arrange, Bytes.length_bits, length_arrange, Bytes.length_bits]

theorem length_arrangeBits_toBits (order : ByteOrder) (size value : Nat) :
    (order.arrangeBits (Bytes.toBits (8 * size) value)).length = 8 * size := by
  rw [order.length_arrangeBits (Bytes.length_toBits _ _), Bytes.length_toBits]

end ByteOrder

namespace Bytes

/-! ### Integers -/

theorem checkWord_eq_ok_iff {size available : Nat} :
    checkWord size available = .ok () ↔ (1 ≤ size ∧ size ≤ 8) ∧ size ≤ available := by
  rw [checkWord, maxWordSize]
  split_ifs <;> simp <;> omega

/-- An integer is denoted by its bytes, put in order. -/
theorem readWord_eq_ok (order : ByteOrder) {size : Nat} {target : List UInt8}
    (hs : 1 ≤ size ∧ size ≤ 8) (ha : size ≤ target.length) :
    readWord size order target =
      .ok (ofBits (order.arrangeBits (segmentBits (bits target) 0 (8 * size)))) := by
  rw [readWord, checkWord_eq_ok_iff.mpr ⟨hs, ha⟩, segmentBits, List.drop_zero, ← bits_take,
    ← ByteOrder.bits_arrange, ofBits_bits]
  rfl

/-- Writing an integer replaces the bits of its bytes. -/
theorem writeWord_eq_ok (value : Nat) (order : ByteOrder) {size : Nat} {target : List UInt8}
    (hs : 1 ≤ size ∧ size ≤ 8) (ha : size ≤ target.length) :
    ∃ target', writeWord value size order target = .ok target' ∧
      bits target' = replaceBits (bits target) 0 (order.arrangeBits (toBits (8 * size) value)) := by
  refine ⟨order.arrange (ofNat size value) ++ target.drop size, ?_, ?_⟩
  · rw [writeWord, checkWord_eq_ok_iff.mpr ⟨hs, ha⟩]
    rfl
  · rw [bits_append, ByteOrder.bits_arrange, bits_ofNat, bits_drop, replaceBits,
      order.length_arrangeBits_toBits, Nat.zero_add, List.take_zero, List.nil_append]

/-- An integer that is written is one that can be. -/
theorem fits_of_writeWord {value size : Nat} {order : ByteOrder} {target target' : List UInt8}
    (h : writeWord value size order target = .ok target') :
    (1 ≤ size ∧ size ≤ 8) ∧ size ≤ target.length :=
  checkWord_eq_ok_iff.mp (Outcome.mapError_eq_ok_iff.mp (Outcome.check_eq_ok_iff.mp h).1)

/-- What writing an integer does when it succeeds. -/
theorem bits_of_writeWord {value size : Nat} {order : ByteOrder} {target target' : List UInt8}
    (h : writeWord value size order target = .ok target') :
    target'.length = target.length ∧ bits target' =
      replaceBits (bits target) 0 (order.arrangeBits (toBits (8 * size) value)) := by
  obtain ⟨hs, ha⟩ := fits_of_writeWord h
  obtain ⟨written, hwrite, hbits⟩ := writeWord_eq_ok value order hs ha
  obtain rfl := Except.ok.inj (hwrite.symm.trans h)
  refine ⟨length_eq_of_bits ?_ hbits, hbits⟩
  rw [order.length_arrangeBits_toBits]
  omega

/-! ### Bit fields -/

theorem span_le_iff {width bitOffset available : Nat} :
    span width bitOffset ≤ available ↔ bitOffset + width ≤ 8 * available := by
  rw [span, Extent.bytesFor_le_iff, Nat.add_comm]

theorem checkField_eq_ok_iff {width bitOffset available : Nat} :
    checkField width bitOffset available = .ok () ↔
      (1 ≤ width ∧ width ≤ 64) ∧ bitOffset ≤ 7 ∧ bitOffset + width ≤ 8 * available := by
  rw [← span_le_iff, checkField, maxFieldWidth]
  split_ifs <;> simp <;> omega

section Span

variable {width bitOffset : Nat} {target : List UInt8}

/-- The bits of the span are those before the field, the field, and those after it. -/
theorem span_bounds (width bitOffset : Nat) :
    bitOffset + width + fieldShift width bitOffset = 8 * span width bitOffset := by
  rw [fieldShift, span, Extent.bytesFor]
  omega

/-- The bits of the span, cut before the field and after it. -/
private theorem bits_span (ha : bitOffset + width ≤ 8 * target.length) :
    ∃ upper lower, upper.length = bitOffset ∧ lower.length = fieldShift width bitOffset ∧
      bits (target.take (span width bitOffset)) =
        upper ++ segmentBits (bits target) bitOffset width ++ lower := by
  have hspan := span_bounds width bitOffset
  have hfits : 8 * span width bitOffset ≤ 8 * target.length := by
    rw [span, Extent.bytesFor] at *
    omega
  refine ⟨(bits target).take bitOffset,
    segmentBits (bits target) (bitOffset + width) (fieldShift width bitOffset), ?_, ?_, ?_⟩
  · rw [List.length_take, length_bits]
    omega
  · rw [length_segmentBits (by rw [length_bits]; omega)]
  · rw [bits_take, ← hspan, List.take_add, List.take_add]
    rfl

/-- A bit field is denoted by its bits. -/
theorem readField_eq_ok (hw : 1 ≤ width ∧ width ≤ 64) (ho : bitOffset ≤ 7)
    (ha : bitOffset + width ≤ 8 * target.length) :
    readField width bitOffset target =
      .ok (ofBits (segmentBits (bits target) bitOffset width)) := by
  obtain ⟨upper, lower, -, hlower, hbits⟩ := bits_span ha
  have hfield : (segmentBits (bits target) bitOffset width).length = width :=
    length_segmentBits (by rw [length_bits]; omega)
  have hextract := extract_ofBits upper (segmentBits (bits target) bitOffset width) lower
  rw [← hbits, ofBits_bits, hlower, hfield] at hextract
  rw [readField, checkField_eq_ok_iff.mpr ⟨hw, ho, ha⟩, ← hextract]
  rfl

/-- The number that the bytes of the span are overwritten with: in its digits the bits of the field
are replaced. -/
private theorem splice_span (ha : bitOffset + width ≤ 8 * target.length) (value : Nat) :
    splice (toNat (target.take (span width bitOffset))) (fieldShift width bitOffset) width value =
        ofBits (replaceBits (bits (target.take (span width bitOffset))) bitOffset
          (toBits width value)) ∧
      (replaceBits (bits (target.take (span width bitOffset))) bitOffset
        (toBits width value)).length = 8 * span width bitOffset := by
  obtain ⟨upper, lower, rfl, hlower, hbits⟩ := bits_span ha
  have hfield : (segmentBits (bits target) upper.length width).length = width :=
    length_segmentBits (by rw [length_bits]; omega)
  have hsplice := splice_ofBits upper (segmentBits (bits target) upper.length width) lower value
  rw [← hbits, ofBits_bits, hlower, hfield] at hsplice
  have hreplace : replaceBits (bits (target.take (span width upper.length))) upper.length
      (toBits width value) = upper ++ toBits width value ++ lower := by
    rw [hbits, List.append_assoc, replaceBits_append _ _ (by rw [hfield, length_toBits]),
      List.append_assoc]
  have hspan := span_bounds width upper.length
  rw [hreplace, List.length_append, List.length_append, length_toBits]
  exact ⟨hsplice, by omega⟩

/-- The bytes of the span can hold the number that they are overwritten with. -/
theorem splice_span_lt (ha : bitOffset + width ≤ 8 * target.length) (value : Nat) :
    splice (toNat (target.take (span width bitOffset))) (fieldShift width bitOffset) width value <
      patterns (8 * span width bitOffset) := by
  obtain ⟨hsplice, hlength⟩ := splice_span ha value
  rw [hsplice, ← hlength]
  exact ofBits_lt _

/-- Writing a bit field replaces its bits. -/
theorem writeField_eq_ok (value : Nat) (hw : 1 ≤ width ∧ width ≤ 64) (ho : bitOffset ≤ 7)
    (ha : bitOffset + width ≤ 8 * target.length) :
    ∃ target', writeField value width bitOffset target = .ok target' ∧
      bits target' = replaceBits (bits target) bitOffset (toBits width value) := by
  obtain ⟨hsplice, hlength⟩ := splice_span ha value
  have htouched : bitOffset + (toBits width value).length ≤ 8 * span width bitOffset := by
    rw [length_toBits]
    exact span_le_iff.mp (Nat.le_refl _)
  refine ⟨_, by rw [writeField, checkField_eq_ok_iff.mpr ⟨hw, ho, ha⟩]; rfl, ?_⟩
  -- the bytes of the span are written anew, and those after it stay
  rw [bits_append, hsplice, bits_ofNat, ← hlength, toBits_ofBits, bits_drop, bits_take,
    replaceBits_take_append_drop htouched]

/-- A bit field that is written is one that can be. -/
theorem fits_of_writeField {value : Nat} {target' : List UInt8}
    (h : writeField value width bitOffset target = .ok target') :
    (1 ≤ width ∧ width ≤ 64) ∧ bitOffset ≤ 7 ∧ bitOffset + width ≤ 8 * target.length :=
  checkField_eq_ok_iff.mp (Outcome.mapError_eq_ok_iff.mp (Outcome.check_eq_ok_iff.mp h).1)

/-- What writing a bit field does when it succeeds. -/
theorem bits_of_writeField {value : Nat} {target' : List UInt8}
    (h : writeField value width bitOffset target = .ok target') :
    target'.length = target.length ∧
      bits target' = replaceBits (bits target) bitOffset (toBits width value) := by
  obtain ⟨hw, ho, ha⟩ := fits_of_writeField h
  obtain ⟨written, hwrite, hbits⟩ := writeField_eq_ok value hw ho ha
  obtain rfl := Except.ok.inj (hwrite.symm.trans h)
  exact ⟨length_eq_of_bits (by rwa [length_toBits]) hbits, hbits⟩

end Span

end Bytes

end BinaryLayout
