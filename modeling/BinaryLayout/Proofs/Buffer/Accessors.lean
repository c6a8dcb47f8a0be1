import BinaryLayout.Proofs.Buffer.Edits
import BinaryLayout.Proofs.View.Bounds

/-!
# Accessors of buffers and views of single fields

A buffer reads and writes integers, bits and raw bytes at an offset by itself, and it does so
through views of fields. The two compare with the length of the buffer in different ways: an
accessor takes what there is from the offset on and leaves the rest to the codec, while a view
compares its last byte, with sums that saturate. They come to the same: a field of a buffer can be
accessed exactly if its bits are in the buffer, `8 * offset + bitOffset + size ≤ 8 * length`.

Each accessor is therefore characterised by the bits that it reads or leaves behind
(`readInt_eq_ok_iff` and those after it), and so are views (`unpack_field_eq_ok_iff`,
`write_field_eq_ok_iff`). `accessors_agree_with_fields` puts the two together.
-/

namespace BinaryLayout

open Bytes (bits segmentBits replaceBits patterns toBits ofBits)

/-! ### Views of single fields -/

/-- The field can be read and stored at its own bit of a byte. Valid fields can, and so can a run of
no bytes. -/
structure Field.Standalone (field : Field) : Prop where
  accessible : field.Accessible
  bitOffset_le : field.bitOffset ≤ 7
  countable : field.bitOffset + field.exactBitSize ≤ Extent.limit

private theorem Field.standalone_integer {signedness : Signedness} {size : Nat} (order : ByteOrder)
    (hs : 1 ≤ size ∧ size ≤ 8) : (Field.integer signedness size order).Standalone where
  accessible := hs
  bitOffset_le := Nat.zero_le _
  countable := by
    change 0 + 8 * size ≤ Extent.limit
    rw [Extent.limit]
    omega

private theorem Field.standalone_bits {width bitOffset : Nat} (hw : 1 ≤ width ∧ width ≤ 64)
    (ho : bitOffset ≤ 7) : (Field.bits width bitOffset).Standalone where
  accessible := hw
  bitOffset_le := ho
  countable := by
    change bitOffset + width ≤ Extent.limit
    rw [Extent.limit]
    omega

private theorem Field.standalone_raw {size : Nat} (hs : size ≤ Extent.limit / 8) :
    (Field.raw size).Standalone where
  accessible := trivial
  bitOffset_le := Nat.zero_le _
  countable := by
    change 0 + 8 * size ≤ Extent.limit
    rw [Extent.limit] at *
    omega

namespace View

variable (handle : Handle) {field : Field} {offset length : Nat}

/-- The bytes that a field touches are in a buffer exactly if its bits are. -/
private theorem inBounds_field_iff (hs : field.Standalone) :
    (ofLayout (.atom handle field) offset).InBounds length ↔
      8 * offset + field.bitOffset + field.exactBitSize ≤ 8 * length := by
  have hsize : (ofLayout (.atom handle field) offset).byteSize =
      Extent.bytesFor (field.bitOffset + field.exactBitSize) := by
    have hcount : field.Countable := Nat.le_trans (Nat.le_add_left _ _) hs.countable
    change Extent.bytesFor (Extent.satAdd field.bitOffset field.bitSize) = _
    rw [hcount.bitSize_eq, Extent.satAdd_of_le hs.countable]
  rw [InBounds, hsize, Extent.bytesFor]
  change offset + _ ≤ _ ↔ _
  omega

/-- A field passes the check of the bounds exactly if its bits are in the buffer. -/
private theorem checkBounds_field_eq_ok_iff (hs : field.Standalone) (hl : length < Extent.limit) :
    (ofLayout (.atom handle field) offset).checkBounds length = .ok () ↔
      8 * offset + field.bitOffset + field.exactBitSize ≤ 8 * length := by
  rw [← inBounds_field_iff handle hs]
  constructor
  · intro hcheck
    by_contra hb
    rw [checkBounds_eq_error hl hb] at hcheck
    cases hcheck
  · intro hb
    rw [InBounds] at hb
    rw [checkBounds, Extent.satAdd_of_le (by omega)]
    exact if_neg (Nat.not_lt_of_le hb)

/-- The origin of a field is its own bit. -/
private theorem origin_field (handle : Handle) (field : Field) (offset : Nat) :
    (ofLayout (.atom handle field) offset).origin = ⟨offset, field.bitOffset⟩ := by
  cases field <;> rfl

/-- A field lies in a buffer if its bits are in it. -/
private theorem liesAt_field (hs : field.Standalone)
    (hf : 8 * offset + field.bitOffset + field.exactBitSize ≤ 8 * length) :
    field.LiesAt (ofLayout (.atom handle field) offset).origin length := by
  rw [origin_field]
  refine ⟨hs.accessible, Nat.lt_succ_of_le hs.bitOffset_le, fun hp => ?_, hf⟩
  cases field with
  | bits => cases hp
  | integer | raw => rfl

private theorem hasRoom_field (hs : field.Standalone) (hl : length < Extent.limit) :
    (ofLayout (.atom handle field) offset).HasRoom length := by
  intro size hf hcheck
  obtain rfl := Option.some.inj hf
  have hfits := (checkBounds_field_eq_ok_iff handle hs hl).mp hcheck
  change 8 * offset + 0 + 8 * size ≤ 8 * length at hfits
  change offset + size ≤ length
  omega

/-- What a field holds is stored if the bits of the field are in the buffer. -/
private theorem exists_write_field {target : List UInt8} (hs : field.Standalone)
    (hl : target.length < Extent.limit) {value : Value} {stored : Stored}
    (hstored : field.store? value = some stored)
    (hf : 8 * offset + field.bitOffset + field.exactBitSize ≤ 8 * target.length) :
    ∃ target', (ofLayout (.atom handle field) offset).write target value = .ok target' := by
  have hcheck := (checkBounds_field_eq_ok_iff handle hs hl).mpr hf
  have hlies := liesAt_field handle hs hf
  rw [origin_field] at hlies
  have hfield : (ofLayout (.atom handle field) offset).layout.field? = some field := rfl
  obtain ⟨target', hwrite, -⟩ :=
    exists_write_of_liesAt hfield hcheck hlies (Field.encode_eq_ok hs.accessible hstored)
  exact ⟨target', hwrite⟩

end View

namespace Buffer

variable {buffer after : Buffer} {handle : Handle} {field : Field} {offset : Nat}

/-- A field is read exactly if its bits are in the buffer, as what they denote. -/
theorem unpack_field_eq_ok_iff (hl : buffer.length < Extent.limit) (hs : field.Standalone)
    {value : Value} : buffer.unpack (.atom handle field) offset = .ok value ↔
      8 * offset + field.bitOffset + field.exactBitSize ≤ 8 * buffer.length ∧
        value = field.ofBits (segmentBits (bits buffer.bytes) (8 * offset + field.bitOffset)
          field.exactBitSize) := by
  by_cases hf : 8 * offset + field.bitOffset + field.exactBitSize ≤ 8 * buffer.length
  · have hcheck := (View.checkBounds_field_eq_ok_iff handle hs hl).mpr hf
    have hfield : (View.ofLayout (.atom handle field) offset).layout.field? = some field := rfl
    have hread := View.read_of_liesAt hfield hcheck (View.liesAt_field handle hs hf)
    rw [View.origin_field] at hread
    rw [unpack, hread, Except.ok.injEq, Location.position]
    simp only [hf, true_and, eq_comm]
  · have hout := mt (View.inBounds_field_iff handle hs).mp hf
    rw [unpack, View.read_eq_error hl hout]
    simp [hf]

/-- A value that a field holds is stored exactly if the bits of the field are in the buffer, and
then its pattern replaces them. -/
theorem write_field_eq_ok_iff (hl : buffer.length < Extent.limit) (hs : field.Standalone)
    {value : Value} {stored : Stored} (hstored : field.store? value = some stored) :
    buffer.write (.ofLayout (.atom handle field) offset) value = .ok after ↔
      8 * offset + field.bitOffset + field.exactBitSize ≤ 8 * buffer.length ∧
        bits after.bytes = replaceBits (bits buffer.bytes) (8 * offset + field.bitOffset)
          (field.pattern stored) := by
  -- whatever is stored is the pattern, in the bits of the field
  have hputs {after : Buffer}
      (h : buffer.write (.ofLayout (.atom handle field) offset) value = .ok after) :
      8 * offset + field.bitOffset + field.exactBitSize ≤ 8 * buffer.length ∧
        bits after.bytes = replaceBits (bits buffer.bytes) (8 * offset + field.bitOffset)
          (field.pattern stored) := by
    obtain ⟨target', hwrite, hafter⟩ := Outcome.bind_eq_ok_iff.mp h
    obtain rfl := Except.ok.inj hafter
    obtain ⟨_, _, hfield, hown, -, hlies, hbits⟩ :=
      View.exists_pattern_of_write (View.hasRoom_field handle hs hl) hwrite
    obtain rfl := Option.some.inj hfield
    obtain rfl := Option.some.inj (hown.symm.trans hstored)
    rw [View.origin_field] at hlies hbits
    exact ⟨hlies.fits, hbits⟩
  refine ⟨hputs, ?_⟩
  rintro ⟨hf, hbits⟩
  obtain ⟨target', hwrite⟩ := View.exists_write_field handle hs hl hstored hf
  have hmade : buffer.write (.ofLayout (.atom handle field) offset) value = .ok ⟨target'⟩ :=
    Outcome.bind_eq_ok_iff.mpr ⟨target', hwrite, rfl⟩
  have hsame : target' = after.bytes := Bytes.bits_inj ((hputs hmade).2.trans hbits.symm)
  rw [hmade, hsame]

/-! ### Accessors -/

/-- Reading from what there is from an offset on. -/
private theorem read_tail_eq_ok_iff {codec : List UInt8 → Except AccessError Nat}
    {bit width : Nat} (number : List Bool → Nat) (hl : buffer.length < Extent.limit)
    (hc : ∀ tail n, codec tail = .ok n ↔
      bit + width ≤ 8 * tail.length ∧ n = number (segmentBits (bits tail) bit width)) {n : Nat} :
    (buffer.tail offset >>= codec) = .ok n ↔ 8 * offset + bit + width ≤ 8 * buffer.length ∧
      n = number (segmentBits (bits buffer.bytes) (8 * offset + bit) width) := by
  have hlength : (buffer.bytes.drop offset).length = buffer.length - offset := List.length_drop
  simp only [Outcome.bind_eq_ok_iff, tail_eq_ok_iff, hc]
  constructor
  · rintro ⟨_, ⟨⟨-, hoffset⟩, rfl⟩, hfits, rfl⟩
    rw [hlength] at hfits
    rw [Bytes.bits_drop, Bytes.segmentBits_drop]
    exact ⟨by omega, rfl⟩
  · rintro ⟨hfits, rfl⟩
    refine ⟨_, ⟨⟨Nat.le_of_lt hl, by omega⟩, rfl⟩, ?_, ?_⟩
    · rw [hlength]
      omega
    · rw [Bytes.bits_drop, Bytes.segmentBits_drop]

/-- Storing into what there is from an offset on. -/
private theorem store_tail_eq_ok_iff {codec : List UInt8 → Except StoreError (List UInt8)}
    {bit width : Nat} {pattern : List Bool} (hl : buffer.length < Extent.limit)
    (hp : pattern.length = width)
    (hok : ∀ tail : List UInt8, bit + width ≤ 8 * tail.length → ∃ tail', codec tail = .ok tail')
    (hc : ∀ {tail tail' : List UInt8}, codec tail = .ok tail' →
      bit + width ≤ 8 * tail.length ∧ bits tail' = replaceBits (bits tail) bit pattern) :
    ((buffer.tail offset).mapError AccessError.toStoreError >>= fun tail =>
        codec tail >>= fun tail' => pure (buffer.replace offset tail')) = .ok after ↔
      8 * offset + bit + width ≤ 8 * buffer.length ∧
        bits after.bytes = replaceBits (bits buffer.bytes) (8 * offset + bit) pattern := by
  have hlength : (buffer.bytes.drop offset).length = buffer.length - offset := List.length_drop
  -- what is stored is put back behind the bytes before the offset
  have hreplace {tail' : List UInt8} (ho : offset ≤ buffer.length)
      (h : codec (buffer.bytes.drop offset) = .ok tail') :
      bits (buffer.replace offset tail').bytes =
        replaceBits (bits buffer.bytes) (8 * offset + bit) pattern := by
    obtain ⟨hfits, hbits⟩ := hc h
    have hsame : tail'.length = (buffer.bytes.drop offset).length :=
      Bytes.length_eq_of_bits (hp ▸ hfits) hbits
    rw [bytes_replace_tail ho hsame, Bytes.bits_append, Bytes.bits_take, hbits, Bytes.bits_drop,
      Bytes.take_append_replaceBits_drop]
  simp only [Outcome.bind_eq_ok_iff, Outcome.mapError_eq_ok_iff, tail_eq_ok_iff]
  constructor
  · rintro ⟨_, ⟨⟨-, hoffset⟩, rfl⟩, tail', hcodec, hafter⟩
    obtain rfl := Except.ok.inj hafter
    obtain ⟨hfits, -⟩ := hc hcodec
    rw [hlength] at hfits
    exact ⟨by omega, hreplace hoffset hcodec⟩
  · rintro ⟨hfits, hbits⟩
    have hoffset : offset ≤ buffer.length := by omega
    obtain ⟨tail', hcodec⟩ := hok (buffer.bytes.drop offset) (by rw [hlength]; omega)
    have hsame : (buffer.replace offset tail').bytes = after.bytes :=
      Bytes.bits_inj ((hreplace hoffset hcodec).trans hbits.symm)
    refine ⟨_, ⟨⟨Nat.le_of_lt hl, hoffset⟩, rfl⟩, tail', hcodec, ?_⟩
    exact congrArg (fun bytes => Except.ok (Buffer.mk bytes)) hsame

/-- An integer is read exactly if its bits are in the buffer, as what they denote. -/
theorem readInt_eq_ok_iff (hl : buffer.length < Extent.limit) {size : Nat} {order : ByteOrder}
    (hs : 1 ≤ size ∧ size ≤ 8) {n : Nat} : buffer.readInt offset size order = .ok n ↔
      8 * offset + 0 + 8 * size ≤ 8 * buffer.length ∧
        n = ofBits (order.arrangeBits
          (segmentBits (bits buffer.bytes) (8 * offset + 0) (8 * size))) := by
  refine read_tail_eq_ok_iff (fun string => ofBits (order.arrangeBits string)) hl
    fun tail n => ⟨fun h => ?_, ?_⟩
  · obtain ⟨hcheck, -⟩ := Outcome.check_eq_ok_iff.mp h
    obtain ⟨-, hfits⟩ := Bytes.checkWord_eq_ok_iff.mp hcheck
    rw [Bytes.readWord_eq_ok order hs hfits] at h
    exact ⟨by omega, (Except.ok.inj h).symm⟩
  · rintro ⟨hfits, rfl⟩
    exact Bytes.readWord_eq_ok order hs (by omega)

/-- Bits are read exactly if they are in the buffer, as the number that they denote. -/
theorem readBits_eq_ok_iff (hl : buffer.length < Extent.limit) {bitOffset width : Nat}
    (hw : 1 ≤ width ∧ width ≤ 64) (ho : bitOffset ≤ 7) {n : Nat} :
    buffer.readBits offset bitOffset width = .ok n ↔
      8 * offset + bitOffset + width ≤ 8 * buffer.length ∧
        n = ofBits (segmentBits (bits buffer.bytes) (8 * offset + bitOffset) width) := by
  refine read_tail_eq_ok_iff ofBits hl fun tail n => ⟨fun h => ?_, ?_⟩
  · obtain ⟨hcheck, -⟩ := Outcome.check_eq_ok_iff.mp h
    obtain ⟨-, -, hfits⟩ := Bytes.checkField_eq_ok_iff.mp hcheck
    rw [Bytes.readField_eq_ok hw ho hfits] at h
    exact ⟨hfits, (Except.ok.inj h).symm⟩
  · rintro ⟨hfits, rfl⟩
    exact Bytes.readField_eq_ok hw ho hfits

/-- Bytes are read exactly if they are in the buffer. -/
theorem slice_eq_ok_iff_bits (hl : buffer.length < Extent.limit) {size : Nat}
    {bytes : List UInt8} : buffer.slice offset size = .ok bytes ↔
      8 * offset + 0 + 8 * size ≤ 8 * buffer.length ∧
        bits bytes = segmentBits (bits buffer.bytes) (8 * offset + 0) (8 * size) := by
  rw [slice_eq_ok_iff, Nat.add_zero, ← Bytes.bits_take_drop]
  constructor
  · rintro ⟨⟨-, hfits⟩, rfl⟩
    exact ⟨by omega, rfl⟩
  · rintro ⟨hfits, hbits⟩
    exact ⟨⟨by omega, by omega⟩, (Bytes.bits_inj hbits).symm⟩

/-- An integer is stored exactly if its bits are in the buffer, and then it replaces them. -/
theorem writeInt_eq_ok_iff (hl : buffer.length < Extent.limit) {value size : Nat}
    {order : ByteOrder} (hs : 1 ≤ size ∧ size ≤ 8) :
    buffer.writeInt offset value size order = .ok after ↔
      8 * offset + 0 + 8 * size ≤ 8 * buffer.length ∧
        bits after.bytes = replaceBits (bits buffer.bytes) (8 * offset + 0)
          (order.arrangeBits (toBits (8 * size) value)) := by
  refine store_tail_eq_ok_iff hl (order.length_arrangeBits_toBits size value)
    (fun tail hfits => ?_) fun h => ⟨?_, (Bytes.bits_of_writeWord h).2⟩
  · have hsize : size ≤ tail.length := by omega
    obtain ⟨tail', hwrite, -⟩ := Bytes.writeWord_eq_ok value order hs hsize
    exact ⟨tail', hwrite⟩
  · have hfits := (Bytes.fits_of_writeWord h).2
    omega

/-- Bits are stored exactly if their place is in the buffer, and then they replace what is there. -/
theorem writeBits_eq_ok_iff (hl : buffer.length < Extent.limit) {bitOffset width value : Nat}
    (hw : 1 ≤ width ∧ width ≤ 64) (ho : bitOffset ≤ 7) :
    buffer.writeBits offset bitOffset width value = .ok after ↔
      8 * offset + bitOffset + width ≤ 8 * buffer.length ∧
        bits after.bytes = replaceBits (bits buffer.bytes) (8 * offset + bitOffset)
          (toBits width value) := by
  refine store_tail_eq_ok_iff hl (Bytes.length_toBits width value) (fun tail hfits => ?_) fun h =>
    ⟨(Bytes.fits_of_writeField h).2.2, (Bytes.bits_of_writeField h).2⟩
  obtain ⟨tail', hwrite, -⟩ := Bytes.writeField_eq_ok value hw ho hfits
  exact ⟨tail', hwrite⟩

/-- Bytes are stored exactly if their place is in the buffer, and they replace what is there. -/
theorem writeRaw_eq_ok_iff (hl : buffer.length < Extent.limit) {bytes : List UInt8} :
    buffer.writeRaw offset bytes = .ok after ↔
      8 * offset + 0 + 8 * bytes.length ≤ 8 * buffer.length ∧
        bits after.bytes = replaceBits (bits buffer.bytes) (8 * offset + 0) (bits bytes) := by
  have hreplace : bits (buffer.replace offset bytes).bytes =
      replaceBits (bits buffer.bytes) (8 * offset + 0) (bits bytes) := by
    rw [replace, replaceBits, Bytes.bits_append, Bytes.bits_append, Bytes.bits_take,
      Bytes.bits_drop, Bytes.length_bits, Nat.mul_add]
    rfl
  rw [writeRaw, Outcome.check_eq_ok_iff, Outcome.mapError_eq_ok_iff, checkRange_eq_ok_iff]
  constructor
  · rintro ⟨⟨-, hfits⟩, hafter⟩
    obtain rfl := Except.ok.inj hafter
    exact ⟨by omega, hreplace⟩
  · rintro ⟨hfits, hbits⟩
    have hsame := Bytes.bits_inj (hreplace.trans hbits.symm)
    exact ⟨⟨by omega, by omega⟩, congrArg (fun bytes => Except.ok (Buffer.mk bytes)) hsame⟩

/-! ### Edits with one effect -/

/-- Both edits are made and leave the same bytes, or both are refused and change nothing. -/
inductive Edit.SameEffect (buffer : Buffer) (edit other : Edit) : Prop
  | made {after : Buffer} (h : edit.perform.on buffer.bytes = some (.ok (), after.bytes))
      (h' : other.perform.on buffer.bytes = some (.ok (), after.bytes))
  | refused {cause cause' : StoreError}
      (h : edit.perform.on buffer.bytes = some (.error cause, buffer.bytes))
      (h' : other.perform.on buffer.bytes = some (.error cause', buffer.bytes))

/-- Edits that give the same buffers have one effect. -/
private theorem Edit.sameEffect_of_apply {edit other : Edit} (hr : edit.HasRoom buffer.length)
    (hr' : other.HasRoom buffer.length)
    (h : ∀ after, edit.apply buffer = .ok after ↔ other.apply buffer = .ok after) :
    SameEffect buffer edit other := by
  have hperform := (perform_settles buffer edit).eq_allOrNothing hr
  have hperform' := (perform_settles buffer other).eq_allOrNothing hr'
  cases happly : edit.apply buffer with
  | ok after =>
    rw [happly] at hperform
    rw [(h after).mp happly] at hperform'
    exact .made hperform hperform'
  | error cause =>
    cases happly' : other.apply buffer with
    | ok after =>
      rw [(h after).mpr happly'] at happly
      cases happly
    | error cause' =>
      rw [happly] at hperform
      rw [happly'] at hperform'
      exact .refused hperform hperform'

/-- An edit that puts the pattern of a value into the place of a field has the effect of storing the
value through a view of the field. -/
private theorem Edit.sameEffect_field (hl : buffer.length < Extent.limit) (hs : field.Standalone)
    {value : Value} {stored : Stored} (hstored : field.store? value = some stored) {edit : Edit}
    (hr : edit.HasRoom buffer.length)
    (h : ∀ after, edit.apply buffer = .ok after ↔
      8 * offset + field.bitOffset + field.exactBitSize ≤ 8 * buffer.length ∧
        Bytes.bits after.bytes =
          replaceBits (Bytes.bits buffer.bytes) (8 * offset + field.bitOffset)
            (field.pattern stored)) :
    SameEffect buffer edit (.field (.ofLayout (.atom handle field) offset) value) :=
  sameEffect_of_apply hr (View.hasRoom_field handle hs hl) fun after =>
    (h after).trans (write_field_eq_ok_iff hl hs hstored).symm

/-! ### Accessors and views -/

/-- The number of bits that are in a buffer. -/
private theorem ofBits_segment_lt {start width : Nat} (h : start + width ≤ 8 * buffer.length) :
    ofBits (segmentBits (bits buffer.bytes) start width) < patterns width := by
  have hlength : (segmentBits (bits buffer.bytes) start width).length = width :=
    Bytes.length_segmentBits (by rw [Bytes.length_bits]; exact h)
  have hlt := Bytes.ofBits_lt (segmentBits (bits buffer.bytes) start width)
  rwa [hlength] at hlt

/-- Bits are read as a number exactly if they are read through a view, where a single bit is a truth
value. The bound says that the number is one of so many bits, which a truth value does not show. -/
private theorem readBits_iff_unpack (hl : buffer.length < Extent.limit) {bitOffset width : Nat}
    (hw : 1 ≤ width ∧ width ≤ 64) (ho : bitOffset ≤ 7) (n : Nat) :
    buffer.readBits offset bitOffset width = .ok n ↔ n < patterns width ∧
      buffer.unpack (.atom handle (.bits width bitOffset)) offset =
        .ok (if width = 1 then .bool (n == 1) else .uint n) := by
  rw [readBits_eq_ok_iff hl hw ho, unpack_field_eq_ok_iff hl (Field.standalone_bits hw ho)]
  change _ ↔ _ ∧ 8 * offset + bitOffset + width ≤ 8 * buffer.length ∧ _ =
    (Field.bits width bitOffset).ofBits
      (segmentBits (bits buffer.bytes) (8 * offset + bitOffset) width)
  by_cases hfits : 8 * offset + bitOffset + width ≤ 8 * buffer.length
  · have hlt := ofBits_segment_lt hfits
    have hlength : (segmentBits (bits buffer.bytes) (8 * offset + bitOffset) width).length =
        width := Bytes.length_segmentBits (by rw [Bytes.length_bits]; exact hfits)
    rw [← Field.value_bits hlength]
    generalize ofBits (segmentBits (bits buffer.bytes) (8 * offset + bitOffset) width) = m at hlt
    simp only [hfits, true_and]
    constructor
    · rintro rfl
      exact ⟨hlt, rfl⟩
    · rintro ⟨hn, hvalue⟩
      split at hvalue
      · -- a single bit is a one or a zero
        subst width
        change n < 2 at hn
        change m < 2 at hlt
        have hbeq := Value.bool.inj hvalue
        rw [Bool.eq_iff_iff, beq_iff_eq, beq_iff_eq] at hbeq
        omega
      · exact Value.uint.inj hvalue
  · simp [hfits]

/-- Bytes are read exactly if they are read through a view of as many raw bytes. -/
private theorem slice_iff_unpack (hl : buffer.length < Extent.limit) {size : Nat}
    (hs : size ≤ Extent.limit / 8) (bytes : List UInt8) :
    buffer.slice offset size = .ok bytes ↔
      buffer.unpack (.atom handle (.raw size)) offset = .ok (.bytes bytes) := by
  rw [slice_eq_ok_iff_bits hl, unpack_field_eq_ok_iff hl (Field.standalone_raw hs)]
  refine and_congr_right fun _ => ?_
  change _ ↔ Value.bytes bytes = (Field.raw size).ofBits
    (segmentBits (bits buffer.bytes) (8 * offset) (8 * size))
  rw [Nat.add_zero, ← Bytes.bits_take_drop, Field.ofBits, Bytes.map_ofBits_octets_bits,
    Value.bytes.injEq]
  exact ⟨Bytes.bits_inj, congrArg bits⟩

/-- An integer is read exactly if it is read through a view. -/
private theorem readInt_iff_unpack (hl : buffer.length < Extent.limit) {size : Nat}
    {order : ByteOrder} (hs : 1 ≤ size ∧ size ≤ 8) (n : Nat) :
    buffer.readInt offset size order = .ok n ↔
      buffer.unpack (.atom handle (.integer .unsigned size order)) offset = .ok (.uint n) := by
  rw [readInt_eq_ok_iff hl hs, unpack_field_eq_ok_iff hl (Field.standalone_integer order hs)]
  exact and_congr_right fun _ => (Value.uint.injEq n _).to_iff.symm

/-- An integer that fits is stored with the effect of storing it through a view. -/
private theorem integer_sameEffect_field (hl : buffer.length < Extent.limit) {size value : Nat}
    {order : ByteOrder} (hs : 1 ≤ size ∧ size ≤ 8) (hv : value < patterns (8 * size)) :
    Edit.SameEffect buffer (.integer offset value size order)
      (.field (.ofLayout (.atom handle (.integer .unsigned size order)) offset) (.uint value)) :=
  Edit.sameEffect_field hl (Field.standalone_integer order hs)
    ((Field.store?_unsigned_iff hs).mpr ⟨value, rfl, hv, rfl⟩) trivial
    fun _ => writeInt_eq_ok_iff hl hs

/-- Bits of a number that fits are stored with the effect of storing the number through a view, or
for a single bit the truth value. -/
private theorem bits_sameEffect_field (hl : buffer.length < Extent.limit)
    {bitOffset width value : Nat} (hw : 1 ≤ width ∧ width ≤ 64) (ho : bitOffset ≤ 7)
    (hv : value < patterns width) :
    Edit.SameEffect buffer (.bits offset bitOffset width value)
        (.field (.ofLayout (.atom handle (.bits width bitOffset)) offset) (.uint value)) ∧
      (width = 1 → Edit.SameEffect buffer (.bits offset bitOffset width value)
        (.field (.ofLayout (.atom handle (.bits width bitOffset)) offset)
          (.bool (value == 1)))) := by
  have hs := Field.standalone_bits hw ho
  refine ⟨?_, ?_⟩
  · exact Edit.sameEffect_field hl hs
      ((Field.store?_bits_iff hw).mpr (.inr ⟨value, rfl, hv, rfl⟩)) trivial
      fun _ => writeBits_eq_ok_iff hl hw ho
  · rintro rfl
    have hbit : (value == 1).toNat = value := by
      change value < 2 at hv
      obtain rfl | rfl : value = 0 ∨ value = 1 := by omega
      · rfl
      · rfl
    refine Edit.sameEffect_field hl hs
      ((Field.store?_bits_iff hw).mpr (.inl ⟨rfl, _, rfl, congrArg Stored.word hbit.symm⟩)) trivial
      fun _ => writeBits_eq_ok_iff hl hw ho

/-- Bytes are stored with the effect of storing them through a view of as many raw bytes. -/
private theorem raw_sameEffect_field (hl : buffer.length < Extent.limit) {bytes : List UInt8}
    (hb : bytes.length ≤ Extent.limit / 8) :
    Edit.SameEffect buffer (.raw offset bytes)
      (.field (.ofLayout (.atom handle (.raw bytes.length)) offset) (.bytes bytes)) := by
  refine Edit.sameEffect_field hl (Field.standalone_raw hb)
    (Field.store?_raw_iff.mpr ⟨bytes, rfl, Nat.le_refl _, rfl⟩) trivial fun after => ?_
  -- there is nothing to fill up
  have hpattern : (Field.raw bytes.length).pattern (.bytes bytes) = bits bytes := by
    rw [Field.pattern, Nat.sub_self, List.replicate_zero, List.append_nil]
  rw [hpattern]
  exact writeRaw_eq_ok_iff hl

/-- The accessors of a buffer against views of single fields at the same offset, whatever the
offset. An integer, bits or a run of bytes is read by an accessor exactly if a view of the unsigned
integer, the bit field or the raw bytes is read, with the same result; a single bit is a truth value
for the view. What fits is stored by an accessor with the effect of storing it through the view:
either both are made and leave the same bytes, or both are refused and change nothing. -/
theorem accessors_agree_with_fields (hl : buffer.length < Extent.limit) (offset : Nat)
    (handle : Handle) :
    (∀ size order, 1 ≤ size ∧ size ≤ 8 →
      (∀ n, buffer.readInt offset size order = .ok n ↔
        buffer.unpack (.atom handle (.integer .unsigned size order)) offset = .ok (.uint n)) ∧
      ∀ value < patterns (8 * size), Edit.SameEffect buffer (.integer offset value size order)
        (.field (.ofLayout (.atom handle (.integer .unsigned size order)) offset)
          (.uint value))) ∧
    (∀ width bitOffset, 1 ≤ width ∧ width ≤ 64 → bitOffset ≤ 7 →
      (∀ n, buffer.readBits offset bitOffset width = .ok n ↔ n < patterns width ∧
        buffer.unpack (.atom handle (.bits width bitOffset)) offset =
          .ok (if width = 1 then .bool (n == 1) else .uint n)) ∧
      ∀ value < patterns width,
        Edit.SameEffect buffer (.bits offset bitOffset width value)
          (.field (.ofLayout (.atom handle (.bits width bitOffset)) offset) (.uint value)) ∧
        (width = 1 → Edit.SameEffect buffer (.bits offset bitOffset width value)
          (.field (.ofLayout (.atom handle (.bits width bitOffset)) offset)
            (.bool (value == 1))))) ∧
    ∀ size ≤ Extent.limit / 8,
      (∀ bytes, buffer.slice offset size = .ok bytes ↔
        buffer.unpack (.atom handle (.raw size)) offset = .ok (.bytes bytes)) ∧
      ∀ bytes : List UInt8, bytes.length = size → Edit.SameEffect buffer (.raw offset bytes)
        (.field (.ofLayout (.atom handle (.raw size)) offset) (.bytes bytes)) := by
  refine ⟨fun size order hs => ⟨readInt_iff_unpack hl hs, fun value hv => ?_⟩,
    fun width bitOffset hw ho => ⟨readBits_iff_unpack hl hw ho, fun value hv => ?_⟩,
    fun size hs => ⟨slice_iff_unpack hl hs, ?_⟩⟩
  · exact integer_sameEffect_field hl hs hv
  · exact bits_sameEffect_field hl hw ho hv
  · rintro bytes rfl
    exact raw_sameEffect_field hl hs

/-- A buffer of three bytes. -/
def threeBytes : Buffer := ⟨[0x12, 0x34, 0x80]⟩

theorem accessors_agree_with_fields_threeBytes :
    (threeBytes.readInt 1 2 .big = .ok 0x3480 ↔
      threeBytes.unpack (.atom ⟨0, 0⟩ (.integer .unsigned 2 .big)) 1 = .ok (.uint 0x3480)) ∧
    Edit.SameEffect threeBytes (.bits 1 3 7 100)
      (.field (.ofLayout (.atom ⟨0, 0⟩ (.bits 7 3)) 1) (.uint 100)) ∧
    Edit.SameEffect threeBytes (.raw Extent.limit [1])
      (.field (.ofLayout (.atom ⟨0, 0⟩ (.raw 1)) Extent.limit) (.bytes [1])) := by
  have hl : threeBytes.length < Extent.limit := by decide
  obtain ⟨hintegers, hbits, -⟩ := accessors_agree_with_fields hl 1 ⟨0, 0⟩
  -- at the last offset there is nothing, and both stores are refused
  obtain ⟨-, -, hraw⟩ := accessors_agree_with_fields hl Extent.limit ⟨0, 0⟩
  refine ⟨?_, ?_, ?_⟩
  · exact (hintegers 2 .big (by decide)).1 0x3480
  · exact ((hbits 7 3 (by decide) (by decide)).2 100 (by decide)).1
  · exact (hraw 1 (by decide)).2 [1] rfl

end Buffer

end BinaryLayout
