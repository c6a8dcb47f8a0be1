import BinaryLayout.Proofs.Bytes.Codec
import BinaryLayout.Proofs.Layout.Laid
import BinaryLayout.Value.Shape
import BinaryLayout.View.Write

/-!
# Fields on bit strings

A field **lies** in a target at a location if it can be accessed at all and its bits are there
(`Field.LiesAt`). There it is read as the value that its bits denote (`Field.read_eq_ok`), and
different bits denote different values (`Field.ofBits_inj`).

A field stores just the values that it accepts (`Field.accepts_iff`). Such a value has a `pattern`,
the bits that the field holds afterwards. They denote the **canonical** form of the value
(`Field.ofBits_pattern`): storing forgets how an integer was signed and how long a byte string was
before it was filled up. Writing puts the pattern into the place of the field and leaves all other
bits of the target (`Field.write_eq_ok`).
-/

namespace BinaryLayout

open Bytes (segmentBits replaceBits patterns)

/-- The number of bits before a location. -/
def Location.position (location : Location) : Nat := 8 * location.byte + location.bit

/-- The bit of a byte that is moved to does not depend on whether that byte can be addressed. -/
theorem Location.bit_advance (location : Location) {bits : Nat}
    (hb : location.bit + bits ≤ Extent.limit) :
    (location.advance bits).bit = (location.bit + bits) % 8 := by
  rw [advance, Extent.satAdd_of_le hb]

/-- Moving on within the addressable bytes is exact. -/
theorem Location.position_advance (location : Location) {bits length : Nat}
    (hb : location.bit + bits ≤ Extent.limit) (hf : location.position + bits ≤ 8 * length)
    (hl : length ≤ Extent.limit) :
    (location.advance bits).position = location.position + bits := by
  rw [position] at hf
  rw [position, position, advance, Extent.satAdd_of_le hb, Extent.satAdd_of_le (by omega)]
  dsimp only
  omega

/-- The bytes from an offset on are there if the offset is at most that of the end. -/
theorem tailFrom_eq_ok_iff {target tail : List UInt8} {offset : Nat} :
    tailFrom target offset = .ok tail ↔ offset ≤ target.length ∧ target.drop offset = tail := by
  rw [tailFrom]
  split <;> simp [*]

namespace Field

variable {field : Field}

/-- The field can be read and stored where it lies in a target. At which bit it is recorded to start
does not matter for this, and neither does the length of a run of raw bytes. -/
def Accessible : Field → Prop
  | .integer _ size _ => 1 ≤ size ∧ size ≤ 8
  | .bits width _ => 1 ≤ width ∧ width ≤ 64
  | .raw _ => True

theorem Valid.accessible (h : field.Valid) : field.Accessible := by
  cases field with
  | integer => exact h
  | bits => exact ⟨h.1, h.2.1⟩
  | raw => trivial

/-- The field lies in a target of the length, from a location on, and can be read and stored there:
if it is not bit packed, it starts on a byte boundary. -/
structure LiesAt (field : Field) (location : Location) (length : Nat) : Prop where
  accessible : field.Accessible
  bit_lt : location.bit < 8
  aligned : field.isBitPacked = false → location.bit = 0
  fits : location.position + field.exactBitSize ≤ 8 * length

/-! ### Values of bits -/

/-- Bits of the field's size that denote the same value are the same: nothing of them is lost. -/
theorem ofBits_inj {a b : List Bool} (ha : a.length = field.exactBitSize)
    (hb : b.length = field.exactBitSize) (h : field.ofBits a = field.ofBits b) : a = b := by
  have hl : a.length = b.length := ha.trans hb.symm
  cases field with
  | integer signedness size order =>
    have harranged : order.arrangeBits a = order.arrangeBits b := by
      have hlength : (order.arrangeBits a).length = (order.arrangeBits b).length := by
        rw [order.length_arrangeBits ha, order.length_arrangeBits hb, hl]
      cases signedness with
      | signed => exact Bytes.ofSignedBits_inj hlength (Value.int.inj h)
      | unsigned => exact Bytes.ofBits_inj hlength (Value.uint.inj h)
    rw [← order.arrangeBits_arrangeBits ha, harranged, order.arrangeBits_arrangeBits hb]
  | bits width offset =>
    -- a single bit denotes a truth value, several denote a number
    rcases eq_or_ne width 1 with rfl | hw
    · obtain ⟨x, rfl⟩ := List.length_eq_one_iff.mp ha
      obtain ⟨y, rfl⟩ := List.length_eq_one_iff.mp hb
      rw [Field.ofBits, Field.ofBits, if_pos rfl, if_pos rfl] at h
      cases x <;> cases y <;> first | rfl | exact absurd (Value.bool.inj h) (by decide)
    · rw [Field.ofBits, Field.ofBits, if_neg hw, if_neg hw] at h
      exact Bytes.ofBits_inj hl (Value.uint.inj h)
  | raw size =>
    obtain ⟨s, -, rfl⟩ := Bytes.exists_bits ha
    obtain ⟨t, -, rfl⟩ := Bytes.exists_bits hb
    have hbytes := Value.bytes.inj h
    rw [Bytes.map_ofBits_octets_bits, Bytes.map_ofBits_octets_bits] at hbytes
    rw [hbytes]

/-! ### Reading -/

private theorem bits_window (target : List UInt8) (offset size : Nat) :
    Bytes.bits (window target.toArray offset size) =
      segmentBits (Bytes.bits target) (8 * offset) (8 * size) := by
  rw [window_toArray, Bytes.bits_take_drop]

private theorem length_window {target : List UInt8} {offset size : Nat}
    (h : 8 * offset + 8 * size ≤ 8 * target.length) :
    (window target.toArray offset size).length = size := by
  rw [window_toArray, List.length_take, List.length_drop]
  omega

/-- Bits read as a number are the value that they denote. -/
theorem value_bits {width : Nat} {string : List Bool} (h : string.length = width)
    (offset : Nat) :
    (if width = 1 then Value.bool (Bytes.ofBits string == 1) else .uint (Bytes.ofBits string)) =
      (Field.bits width offset).ofBits string := by
  rw [Field.ofBits]
  split
  · subst width
    obtain ⟨x, rfl⟩ := List.length_eq_one_iff.mp ‹_›
    cases x <;> rfl
  · rfl

variable {target : List UInt8} {location : Location}

/-- A field is read, where it lies, as the value that its bits denote. -/
theorem read_eq_ok (h : field.LiesAt location target.length) :
    field.read target.toArray location =
      .ok (field.ofBits
        (segmentBits (Bytes.bits target) location.position field.exactBitSize)) := by
  obtain ⟨hv, hbit, haligned, hfits⟩ := h
  rw [Location.position] at *
  cases field with
  | integer signedness size order =>
    simp only [haligned rfl, Nat.add_zero, exactBitSize] at hfits ⊢
    have hlength := length_window hfits
    have hword := Bytes.readWord_eq_ok order hv (Nat.le_of_eq hlength.symm)
    rw [bits_window, Bytes.segmentBits_segmentBits (by omega), Nat.add_zero] at hword
    cases signedness with
    | unsigned => rw [Field.read, hword]; rfl
    | signed =>
      have hdigits : (order.arrangeBits (segmentBits (Bytes.bits target) (8 * location.byte)
          (8 * size))).length = 8 * size := by
        have hsegment : (segmentBits (Bytes.bits target) (8 * location.byte) (8 * size)).length =
            8 * size := Bytes.length_segmentBits (by rw [Bytes.length_bits]; exact hfits)
        rw [order.length_arrangeBits hsegment, hsegment]
      have hsign := Bytes.signExtend_ofBits (order.arrangeBits
        (segmentBits (Bytes.bits target) (8 * location.byte) (8 * size)))
      rw [hdigits] at hsign
      rw [Field.read, hword, Field.ofBits, ← hsign]
      rfl
  | bits width offset =>
    change 8 * location.byte + location.bit + width ≤ 8 * target.length at hfits
    -- the codec is given the bytes of the span alone, and they hold the field
    have hspan : 8 * location.byte + 8 * Bytes.span width location.bit ≤ 8 * target.length := by
      rw [Bytes.span, Extent.bytesFor]
      omega
    have htouched : location.bit + width ≤ 8 * Bytes.span width location.bit := by
      rw [Bytes.span, Extent.bytesFor]
      omega
    have hlength := length_window hspan
    have hfield := Bytes.readField_eq_ok hv (Nat.le_of_lt_succ hbit)
      (htouched.trans (Nat.le_of_eq (congrArg (8 * ·) hlength.symm)))
    rw [bits_window, Bytes.segmentBits_segmentBits htouched] at hfield
    rw [Field.read, hfield]
    have hcovered :
        (segmentBits (Bytes.bits target) (8 * location.byte + location.bit) width).length =
          width := Bytes.length_segmentBits (by rw [Bytes.length_bits]; exact hfits)
    exact congrArg Except.ok (value_bits hcovered offset)
  | raw size =>
    simp only [haligned rfl, Nat.add_zero, exactBitSize] at hfits ⊢
    rw [Field.read, if_pos (length_window hfits), Field.ofBits, ← bits_window,
      Bytes.map_ofBits_octets_bits]

/-! ### Writing -/

/-- The form in which a value that a field has stored is read back. -/
def canonical : Field → Value → Value
  | .integer .signed _ _, .uint n => .int n
  | .integer .unsigned _ _, .int i => .uint i.toNat
  | .bits width _, .int i => if width = 1 then .bool (i == 1) else .uint i.toNat
  | .bits width _, .uint n => if width = 1 then .bool (n == 1) else .uint n
  | .raw size, .bytes bytes => .bytes (bytes ++ List.replicate (size - bytes.length) 0)
  | _, value => value

/-- The bits that a field holds after something is stored in it. -/
def pattern : Field → Stored → List Bool
  | .integer _ size order, .word word => order.arrangeBits (Bytes.toBits (8 * size) word)
  | .bits width _, .word word => Bytes.toBits width word
  | .raw size, .bytes bytes => Bytes.bits (bytes ++ List.replicate (size - bytes.length) 0)
  | _, _ => []

/-- An integer of `width` bits is denoted by the lowest bits of its word. -/
private theorem ofSignedBits_wordOfInt {i : Int} {width : Nat} (hw : 1 ≤ width ∧ width ≤ 64)
    (hi : -(patterns (width - 1) : Int) ≤ i ∧ i < patterns (width - 1)) :
    Bytes.ofSignedBits (Bytes.toBits width (wordOfInt i)) = i := by
  have hpatterns : patterns width = 2 * patterns (width - 1) := by
    rw [← Bytes.patterns_succ, Nat.sub_add_cancel hw.1]
  have hdvd : (patterns width : Int) ∣ (patterns 64 : Int) := by
    refine Int.natCast_dvd_natCast.mpr ⟨patterns (64 - width), ?_⟩
    rw [← Bytes.patterns_add, Nat.add_sub_cancel' hw.2]
  -- the word and the integer are congruent modulo all powers of two up to the 64th
  have hword : (wordOfInt i : Int) = i % patterns 64 :=
    Int.toNat_of_nonneg (Int.emod_nonneg _ (by decide))
  have hsign := Bytes.signExtend_ofBits (Bytes.toBits width (wordOfInt i))
  rw [Bytes.length_toBits, Bytes.ofBits_toBits] at hsign
  rw [← hsign, Bytes.signExtend, Bytes.lowBits, Int.natCast_emod, hword,
    Int.emod_emod_of_dvd _ hdvd, Int.emod_bmod]
  exact Int.bmod_eq_of_le_mul_two (by omega) (by omega)

/-! ### What a field stores -/

variable {value : Value} {stored : Stored}

private theorem signed64?_eq_some_iff {i : Int} :
    value.signed64? = some i ↔
      i ∈ value.integer? ∧ -(patterns 63 : Int) ≤ i ∧ i < patterns 63 := by
  have hpatterns : patterns 63 = 0x8000000000000000 := rfl
  cases value with
  | int j | uint n =>
    simp only [Value.signed64?, Value.integer?, Option.ite_none_right_eq_some, Option.some.injEq,
      Option.mem_def, hpatterns]
    omega
  | _ => simp [Value.signed64?, Value.integer?]

private theorem unsigned64?_eq_some_iff {n : Nat} :
    value.unsigned64? = some n ↔ (n : Int) ∈ value.integer? ∧ n < patterns 64 := by
  have hpatterns : patterns 64 = Extent.limit + 1 := rfl
  cases value with
  | int j | uint n =>
    simp only [Value.unsigned64?, Value.integer?, Option.ite_none_right_eq_some, Option.some.injEq,
      Option.mem_def, hpatterns]
    omega
  | _ => simp [Value.unsigned64?, Value.integer?]

/-- The word of a number of at most 64 bits that is not above the mask of a width. -/
private def wordBelow? (width : Nat) (value : Value) : Option Stored :=
  value.unsigned64?.bind fun n => if n ≤ mask width then some (.word n) else none

private theorem wordBelow?_eq_some_iff {width : Nat} (hw : width ≤ 64) :
    wordBelow? width value = some stored ↔
      ∃ n : Nat, (n : Int) ∈ value.integer? ∧ n < patterns width ∧ stored = .word n := by
  have hmask (n : Nat) : n < patterns 64 ∧ n ≤ mask width ↔ n < patterns width := by
    have hle := Bytes.patterns_le_patterns hw
    have hpos := Bytes.patterns_pos width
    rw [mask, Nat.min_eq_left hw]
    omega
  rw [wordBelow?, Option.bind_eq_some_iff]
  refine exists_congr fun n => ?_
  rw [unsigned64?_eq_some_iff, Option.ite_none_right_eq_some]
  constructor
  · rintro ⟨⟨hi, hn⟩, hm, ⟨⟩⟩
    exact ⟨hi, (hmask n).mp ⟨hn, hm⟩, rfl⟩
  · rintro ⟨hi, hn, rfl⟩
    obtain ⟨hn, hm⟩ := (hmask n).mpr hn
    exact ⟨⟨hi, hn⟩, hm, rfl⟩

/-- A signed integer field stores the words of the integers in its range. -/
theorem store?_signed_iff {size : Nat} {order : ByteOrder} (hs : 1 ≤ size ∧ size ≤ 8) :
    store? (.integer .signed size order) value = some stored ↔
      ∃ i ∈ value.integer?, (-(patterns (8 * size - 1) : Int) ≤ i ∧ i < patterns (8 * size - 1)) ∧
        stored = .word (wordOfInt i) := by
  -- eight bytes hold all integers of 64 bits, and fewer bytes some of them
  have hrange (i : Int) : ((-(patterns 63 : Int) ≤ i ∧ i < patterns 63) ∧
      (64 ≤ 8 * size ∨ -(patterns (8 * size - 1) : Int) ≤ i ∧ i < patterns (8 * size - 1))) ↔
        -(patterns (8 * size - 1) : Int) ≤ i ∧ i < patterns (8 * size - 1) := by
    have hle : patterns (8 * size - 1) ≤ patterns 63 := Bytes.patterns_le_patterns (by omega)
    rcases Nat.lt_or_ge size 8 with h | h
    · omega
    · obtain rfl : size = 8 := by omega
      simp
  have hstore : store? (.integer .signed size order) value = value.signed64?.bind fun i =>
      if 64 ≤ 8 * size ∨ (-(patterns (8 * size - 1) : Int) ≤ i ∧ i < patterns (8 * size - 1)) then
        some (.word (wordOfInt i))
      else none := by
    rw [store?]
    cases value.signed64? <;> rfl
  rw [hstore, Option.bind_eq_some_iff]
  refine exists_congr fun i => ?_
  rw [signed64?_eq_some_iff, Option.ite_none_right_eq_some]
  constructor
  · rintro ⟨⟨hi, h63⟩, hc, ⟨⟩⟩
    exact ⟨hi, (hrange i).mp ⟨h63, hc⟩, rfl⟩
  · rintro ⟨hi, hr, rfl⟩
    obtain ⟨h63, hc⟩ := (hrange i).mpr hr
    exact ⟨⟨hi, h63⟩, hc, rfl⟩

/-- An unsigned integer field stores the numbers in its range. -/
theorem store?_unsigned_iff {size : Nat} {order : ByteOrder} (hs : 1 ≤ size ∧ size ≤ 8) :
    store? (.integer .unsigned size order) value = some stored ↔
      ∃ n : Nat, (n : Int) ∈ value.integer? ∧ n < patterns (8 * size) ∧ stored = .word n := by
  have hstore : store? (.integer .unsigned size order) value = wordBelow? (8 * size) value := by
    rw [store?, wordBelow?]
    cases value.unsigned64? <;> rfl
  rw [hstore, wordBelow?_eq_some_iff (by omega)]

/-- A bit field stores the numbers in its range, and a single bit the truth values as well. -/
theorem store?_bits_iff {width offset : Nat} (hw : 1 ≤ width ∧ width ≤ 64) :
    store? (.bits width offset) value = some stored ↔
      (width = 1 ∧ ∃ b, value = .bool b ∧ stored = .word b.toNat) ∨
        ∃ n : Nat, (n : Int) ∈ value.integer? ∧ n < patterns width ∧ stored = .word n := by
  by_cases hbool : width = 1 ∧ ∃ b, value = .bool b
  · obtain ⟨rfl, b, rfl⟩ := hbool
    simp [store?, Value.integer?, eq_comm]
  · have hstore : store? (.bits width offset) value = wordBelow? width value := by
      unfold store? wordBelow?
      dsimp only
      split
      · exact absurd ⟨rfl, _, rfl⟩ hbool
      · cases value.unsigned64? <;> rfl
    rw [hstore, wordBelow?_eq_some_iff hw.2, or_iff_right]
    rintro ⟨rfl, b, rfl, -⟩
    exact hbool ⟨rfl, b, rfl⟩

/-- A run of raw bytes stores byte strings that are not longer. -/
theorem store?_raw_iff {size : Nat} :
    store? (.raw size) value = some stored ↔
      ∃ bytes, value = .bytes bytes ∧ bytes.length ≤ size ∧ stored = .bytes bytes := by
  cases value with
  | bytes bytes => simp [store?, Value.bytes?, eq_comm]
  | _ => simp [store?, Value.bytes?]

/-- An accessible field stores just the values that it accepts. -/
theorem accepts_iff (hv : field.Accessible) :
    field.Accepts value ↔ ∃ stored, field.store? value = some stored := by
  -- integers that are not negative are natural numbers
  have hnat (width : Nat) : (∃ i ∈ value.integer?, 0 ≤ i ∧ i < patterns width) ↔
      ∃ n : Nat, (n : Int) ∈ value.integer? ∧ n < patterns width := by
    constructor
    · rintro ⟨i, hi, hlow, hhigh⟩
      obtain ⟨n, rfl⟩ := Int.eq_ofNat_of_zero_le hlow
      exact ⟨n, hi, Int.ofNat_lt.mp hhigh⟩
    · rintro ⟨n, hn, hhigh⟩
      exact ⟨n, hn, Int.natCast_nonneg n, Int.ofNat_lt.mpr hhigh⟩
  cases field with
  | integer signedness size order =>
    cases signedness with
    | signed =>
      rw [Accepts]
      simp only [store?_signed_iff hv]
      constructor
      · rintro ⟨i, hi, hrange⟩
        exact ⟨_, i, hi, hrange, rfl⟩
      · rintro ⟨_, i, hi, hrange, -⟩
        exact ⟨i, hi, hrange⟩
    | unsigned =>
      rw [Accepts, hnat]
      simp only [store?_unsigned_iff hv]
      constructor
      · rintro ⟨n, hi, hn⟩
        exact ⟨_, n, hi, hn, rfl⟩
      · rintro ⟨_, n, hi, hn, -⟩
        exact ⟨n, hi, hn⟩
  | bits width offset =>
    rw [Accepts, hnat]
    simp only [store?_bits_iff hv]
    constructor
    · rintro (⟨hw, hb⟩ | ⟨n, hi, hn⟩)
      · cases value with
        | bool b => exact ⟨_, .inl ⟨hw, b, rfl, rfl⟩⟩
        | _ => cases hb
      · exact ⟨_, .inr ⟨n, hi, hn, rfl⟩⟩
    · rintro ⟨_, ⟨hw, b, rfl, -⟩ | ⟨n, hi, hn, -⟩⟩
      · exact .inl ⟨hw, rfl⟩
      · exact .inr ⟨n, hi, hn⟩
  | raw size =>
    rw [Accepts]
    simp only [store?_raw_iff]
    constructor
    · rintro ⟨bytes, hb, hlength⟩
      cases value with
      | bytes own =>
        obtain rfl := Option.some.inj hb
        exact ⟨_, own, rfl, hlength, rfl⟩
      | _ => cases hb
    · rintro ⟨_, bytes, rfl, hlength, -⟩
      exact ⟨bytes, rfl, hlength⟩

/-- Integers and bits are stored as numbers. -/
theorem exists_word_of_store? (hf : ∀ size, field ≠ .raw size)
    (h : field.store? value = some stored) : ∃ word, stored = .word word := by
  cases field with
  | integer signedness size order =>
    cases signedness with
    | signed | unsigned =>
      rw [store?] at h
      split at h
      · obtain ⟨-, hstored⟩ := Option.ite_none_right_eq_some.mp h
        exact ⟨_, (Option.some.inj hstored).symm⟩
      · cases h
  | bits width offset =>
    unfold store? at h
    dsimp only at h
    split at h
    · exact ⟨_, (Option.some.inj h).symm⟩
    · split at h
      · obtain ⟨-, hstored⟩ := Option.ite_none_right_eq_some.mp h
        exact ⟨_, (Option.some.inj hstored).symm⟩
      · cases h
  | raw size => exact absurd rfl (hf size)

/-- What a value is encoded as is what the field stores of it. -/
theorem store?_of_encode (h : field.encode value = .ok stored) :
    field.store? value = some stored := by
  obtain ⟨-, h⟩ := Outcome.check_eq_ok_iff.mp h
  split at h
  · rename_i hstored
    exact hstored.trans (congrArg some (Except.ok.inj h))
  · cases h

theorem Accessible.checkStorable (h : field.Accessible) : field.checkStorable = .ok () := by
  cases field with
  | integer signedness size order =>
    obtain ⟨hlow, hhigh⟩ := h
    rw [Field.checkStorable, Bytes.maxWordSize, if_neg (by omega)]
  | bits | raw => rfl

/-- An accessible field encodes what it stores. -/
theorem encode_eq_ok (hv : field.Accessible) (h : field.store? value = some stored) :
    field.encode value = .ok stored := by
  rw [encode, hv.checkStorable, h]
  rfl

/-- An accessible field encodes the values that it accepts. -/
theorem exists_encode (hv : field.Accessible) (ha : field.Accepts value) :
    ∃ stored, field.encode value = .ok stored := by
  obtain ⟨stored, hstored⟩ := (accepts_iff hv).mp ha
  exact ⟨stored, encode_eq_ok hv hstored⟩

/-- The other values do not fit it. -/
theorem encode_eq_error (hv : field.Accessible) (ha : ¬ field.Accepts value) :
    field.encode value = .error (.mismatch field.signature value) := by
  rw [accepts_iff hv, ← Option.isSome_iff_exists, Option.not_isSome_iff_eq_none] at ha
  rw [encode, hv.checkStorable, ha]
  rfl

private theorem canonical_signed {size : Nat} {order : ByteOrder} {i : Int}
    (h : i ∈ value.integer?) : canonical (.integer .signed size order) value = .int i := by
  cases value with
  | int j | uint n => obtain rfl := Option.some.inj h; rfl
  | _ => cases h

private theorem canonical_unsigned {size n : Nat} {order : ByteOrder}
    (h : (n : Int) ∈ value.integer?) :
    canonical (.integer .unsigned size order) value = .uint n := by
  cases value with
  | int j => obtain rfl := Option.some.inj h; rfl
  | uint m => obtain rfl := Int.ofNat.inj (Option.some.inj h); rfl
  | _ => cases h

private theorem canonical_bits {width offset n : Nat} (h : (n : Int) ∈ value.integer?) :
    canonical (.bits width offset) value = if width = 1 then .bool (n == 1) else .uint n := by
  cases value with
  | int j =>
    obtain rfl := Option.some.inj h
    have hone : ((n : Int) == 1) = (n == 1) := by
      rw [Bool.eq_iff_iff, beq_iff_eq, beq_iff_eq]
      omega
    rw [canonical, hone, Int.toNat_natCast]
  | uint m => obtain rfl := Int.ofNat.inj (Option.some.inj h); rfl
  | _ => cases h

/-- What is stored in a field has the bits of the field, and they denote the canonical form of the
value. -/
theorem ofBits_pattern (hv : field.Accessible) (h : field.store? value = some stored) :
    (field.pattern stored).length = field.exactBitSize ∧
      field.ofBits (field.pattern stored) = field.canonical value := by
  cases field with
  | integer signedness size order =>
    cases signedness with
    | signed =>
      obtain ⟨i, hvalue, hi, rfl⟩ := (store?_signed_iff hv).mp h
      refine ⟨order.length_arrangeBits_toBits _ _, ?_⟩
      rw [canonical_signed hvalue, pattern, Field.ofBits,
        order.arrangeBits_arrangeBits (Bytes.length_toBits _ _),
        ofSignedBits_wordOfInt ⟨by have := hv.1; omega, by have := hv.2; omega⟩ hi]
    | unsigned =>
      obtain ⟨n, hvalue, hn, rfl⟩ := (store?_unsigned_iff hv).mp h
      refine ⟨order.length_arrangeBits_toBits _ _, ?_⟩
      rw [canonical_unsigned hvalue, pattern, Field.ofBits,
        order.arrangeBits_arrangeBits (Bytes.length_toBits _ _),
        Bytes.ofBits_toBits, Bytes.lowBits_of_lt hn]
  | bits width offset =>
    obtain ⟨rfl, b, rfl, rfl⟩ | ⟨n, hvalue, hn, rfl⟩ := (store?_bits_iff hv).mp h
    · cases b <;> exact ⟨rfl, rfl⟩
    · refine ⟨Bytes.length_toBits _ _, ?_⟩
      rw [canonical_bits hvalue, pattern, ← value_bits (Bytes.length_toBits _ _),
        Bytes.ofBits_toBits, Bytes.lowBits_of_lt hn]
  | raw size =>
    obtain ⟨bytes, rfl, hlength, rfl⟩ := store?_raw_iff.mp h
    refine ⟨?_, ?_⟩
    · rw [pattern, Bytes.length_bits, List.length_append, List.length_replicate,
        Nat.add_sub_cancel' hlength]
      rfl
    · rw [pattern, Field.ofBits, Bytes.map_ofBits_octets_bits]
      rfl

/-- Storing a value in a field, where it lies, puts its pattern into the place of the field. -/
theorem write_eq_ok (hl : field.LiesAt location target.length)
    (h : field.store? value = some stored) :
    ∃ tail, field.write value stored location.bit (target.drop location.byte) = .ok tail ∧
      Bytes.bits (target.take location.byte ++ tail) =
        replaceBits (Bytes.bits target) location.position (field.pattern stored) := by
  obtain ⟨hv, hbit, haligned, hfits⟩ := hl
  have htail : location.bit + field.exactBitSize ≤ 8 * (target.drop location.byte).length := by
    rw [Location.position] at hfits
    rw [List.length_drop]
    omega
  rw [Location.position]
  simp only [Bytes.bits_append, Bytes.bits_take, ← Bytes.take_append_replaceBits_drop]
  simp only [List.append_cancel_left_eq, ← Bytes.bits_drop]
  cases field with
  | integer signedness size order =>
    rw [haligned rfl, Nat.zero_add] at htail
    rw [haligned rfl]
    obtain ⟨word, rfl⟩ := exists_word_of_store? (by simp) h
    exact Bytes.writeWord_eq_ok _ _ hv (Nat.le_of_mul_le_mul_left htail (by decide))
  | bits width offset =>
    obtain ⟨n, rfl⟩ := exists_word_of_store? (by simp) h
    exact Bytes.writeField_eq_ok _ hv (Nat.le_of_lt_succ hbit) htail
  | raw size =>
    obtain ⟨bytes, rfl, hlength, rfl⟩ := store?_raw_iff.mp h
    refine ⟨_, rfl, ?_⟩
    have hpattern := (ofBits_pattern hv h).1
    rw [haligned rfl, Bytes.bits_append, Bytes.bits_drop, replaceBits, hpattern, List.take_zero,
      List.nil_append, Nat.zero_add]
    rfl

end Field

end BinaryLayout
