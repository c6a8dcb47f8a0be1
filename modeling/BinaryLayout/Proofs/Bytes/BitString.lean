import BinaryLayout.Bytes.Word
import BinaryLayout.Proofs.Bytes.Numeral

/-!
# Bit strings of targets

The bits of a target are looked at in two ways. As a list they are cut and put together with the
target itself: the bits of the bytes from `n` on are the bits from `8 * n` on (`bits_drop`). As a
numeral they denote the number of the target (`ofBits_bits`), and every string of whole bytes is the
bits of some target (`exists_bits`).

`segmentBits` takes the bits at a place. `replaceBits` puts other bits into such a place, and what
is not in it stays (`getElem?_replaceBits_of_lt`, `getElem?_replaceBits_of_le`).
-/

namespace BinaryLayout.Bytes

/-! ### Bits of bytes -/

@[simp]
theorem bits_nil : bits [] = [] := rfl

theorem bits_cons (byte : UInt8) (target : List UInt8) :
    bits (byte :: target) = toBits 8 byte.toNat ++ bits target := rfl

@[simp]
theorem bits_append (a b : List UInt8) : bits (a ++ b) = bits a ++ bits b := by
  simp [bits]

@[simp]
theorem length_bits (target : List UInt8) : (bits target).length = 8 * target.length := by
  induction target with
  | nil => rfl
  | cons byte target ih =>
    rw [bits_cons, List.length_append, length_toBits, ih, List.length_cons, Nat.mul_succ,
      Nat.add_comm]

theorem bits_drop (target : List UInt8) (n : Nat) :
    bits (target.drop n) = (bits target).drop (8 * n) := by
  rcases Nat.le_total n target.length with h | h
  · have hl : (bits (target.take n)).length = 8 * n := by simp [h]
    conv_rhs => rw [← List.take_append_drop n target, bits_append, ← hl, List.drop_left]
  · rw [List.drop_of_length_le h, List.drop_of_length_le (by rw [length_bits]; omega), bits_nil]

theorem bits_take (target : List UInt8) (n : Nat) :
    bits (target.take n) = (bits target).take (8 * n) := by
  rcases Nat.le_total n target.length with h | h
  · have hl : (bits (target.take n)).length = 8 * n := by simp [h]
    conv_rhs => rw [← List.take_append_drop n target, bits_append, ← hl, List.take_left]
  · rw [List.take_of_length_le h, List.take_of_length_le (by rw [length_bits]; omega)]

private theorem toNatFrom_eq (n : Nat) (target : List UInt8) :
    toNatFrom n target = n * patterns (8 * target.length) + ofBits (bits target) := by
  induction target generalizing n with
  | nil => simp [toNatFrom]
  | cons byte target ih =>
    have hbyte : lowBits byte.toNat 8 = byte.toNat := lowBits_of_lt byte.toNat_lt
    rw [toNatFrom, ih, bits_cons, ofBits_append, ofBits_toBits, hbyte, length_bits,
      List.length_cons, Nat.mul_succ, patterns_add]
    change _ = n * (_ * 256) + _
    ring

/-- The bits of a target denote the number of its bytes. -/
theorem ofBits_bits (target : List UInt8) : ofBits (bits target) = toNat target := by
  rw [toNat, toNatFrom_eq, Nat.zero_mul, Nat.zero_add]

/-- The bits of the lowest bytes of a number are its lowest digits. -/
theorem bits_ofNat (size n : Nat) : bits (ofNat size n) = toBits (8 * size) n := by
  induction size generalizing n with
  | zero => rfl
  | succ size ih =>
    have hbyte : (UInt8.ofNat n).toNat = lowBits n 8 := UInt8.toNat_ofNat'
    rw [ofNat, bits_append, ih, bits_cons, hbyte, toBits_lowBits, bits_nil, List.append_nil,
      Nat.mul_succ, toBits_add]
    rfl

@[simp]
theorem length_ofNat (size n : Nat) : (ofNat size n).length = size := by
  induction size generalizing n with
  | zero => rfl
  | succ size ih => simp [ofNat, ih]

/-- Every string of whole bytes is the bits of a target. -/
theorem exists_bits {string : List Bool} {size : Nat} (h : string.length = 8 * size) :
    ∃ target : List UInt8, target.length = size ∧ bits target = string := by
  refine ⟨ofNat size (ofBits string), length_ofNat _ _, ?_⟩
  rw [bits_ofNat, ← h, toBits_ofBits]

/-! ### Octets -/

private theorem octets_append {octet : List Bool} (h : octet.length = 8) (string : List Bool) :
    octets (octet ++ string) = octet :: octets string := by
  match octet, h with
  | [_, _, _, _, _, _, _, _], _ => rfl

/-- The bits of a target, cut into pieces again. -/
theorem octets_bits (target : List UInt8) :
    octets (bits target) = target.map fun byte => toBits 8 byte.toNat := by
  induction target with
  | nil => rfl
  | cons byte target ih => rw [bits_cons, octets_append (length_toBits _ _), ih, List.map_cons]

/-- The bytes that the pieces denote are the target. -/
theorem map_ofBits_octets_bits (target : List UInt8) :
    (octets (bits target)).map (fun octet => UInt8.ofNat (ofBits octet)) = target := by
  have hbyte (byte : UInt8) : UInt8.ofNat (ofBits (toBits 8 byte.toNat)) = byte := by
    rw [ofBits_toBits, lowBits_of_lt byte.toNat_lt, UInt8.ofNat_toNat]
  rw [octets_bits, List.map_map]
  exact (List.map_congr_left fun byte _ => hbyte byte).trans (List.map_id _)

/-- Targets with the same bits are the same. -/
theorem bits_inj {a b : List UInt8} (h : bits a = bits b) : a = b := by
  rw [← map_ofBits_octets_bits a, h, map_ofBits_octets_bits]

/-- A number and what it is above none of its lowest bytes are written alike. -/
theorem ofNat_lowBits (size value : Nat) :
    ofNat size (lowBits value (8 * size)) = ofNat size value :=
  bits_inj (by rw [bits_ofNat, bits_ofNat, toBits_lowBits])

/-- The number of bytes is one of as many patterns as their bits have. -/
theorem toNat_lt (target : List UInt8) : toNat target < patterns (8 * target.length) := by
  rw [← ofBits_bits, ← length_bits]
  exact ofBits_lt _

/-! ### Segments -/

/-- The `length` bits of a string from bit `start` on. -/
def segmentBits (string : List Bool) (start length : Nat) : List Bool :=
  (string.drop start).take length

theorem length_segmentBits {string : List Bool} {start length : Nat}
    (h : start + length ≤ string.length) : (segmentBits string start length).length = length := by
  rw [segmentBits, List.length_take, List.length_drop]
  omega

theorem getElem?_segmentBits {string : List Bool} {start length i : Nat} (h : i < length) :
    (segmentBits string start length)[i]? = string[start + i]? := by
  rw [segmentBits, List.getElem?_take_of_lt h, List.getElem?_drop]

/-- Two segments of one length are the same exactly when their bits are, one by one. -/
theorem segmentBits_eq_iff {a b : List Bool} {start start' length : Nat}
    (ha : start + length ≤ a.length) (hb : start' + length ≤ b.length) :
    segmentBits a start length = segmentBits b start' length ↔
      ∀ i < length, a[start + i]? = b[start' + i]? := by
  constructor
  · intro h i hi
    rw [← getElem?_segmentBits hi, h, getElem?_segmentBits hi]
  · intro h
    refine List.ext_getElem? fun i => ?_
    -- past its length neither segment has a bit
    rcases Nat.lt_or_ge i length with hi | hi
    · rw [getElem?_segmentBits hi, getElem?_segmentBits hi, h i hi]
    · rw [List.getElem?_eq_none (by rw [length_segmentBits ha]; exact hi),
        List.getElem?_eq_none (by rw [length_segmentBits hb]; exact hi)]

/-- The bits of some bytes of a target are a segment. -/
theorem bits_take_drop (target : List UInt8) (offset size : Nat) :
    bits ((target.drop offset).take size) = segmentBits (bits target) (8 * offset) (8 * size) := by
  rw [bits_take, bits_drop, segmentBits]

/-- A segment of what is left of a string. -/
theorem segmentBits_drop (string : List Bool) (n start length : Nat) :
    segmentBits (string.drop n) start length = segmentBits string (n + start) length := by
  rw [segmentBits, List.drop_drop, segmentBits]

/-- A segment of a segment. -/
theorem segmentBits_segmentBits {string : List Bool} {start length start' length' : Nat}
    (h : start' + length' ≤ length) :
    segmentBits (segmentBits string start length) start' length' =
      segmentBits string (start + start') length' := by
  rw [segmentBits, segmentBits, segmentBits, List.drop_take, List.take_take, List.drop_drop]
  congr 1
  omega

/-! ### Replaced bits -/

variable {string new : List Bool} {start : Nat}

theorem length_replaceBits (h : start + new.length ≤ string.length) :
    (replaceBits string start new).length = string.length := by
  rw [replaceBits, List.length_append, List.length_append, List.length_take, List.length_drop]
  omega

/-- A target some of whose bits are replaced keeps its length. -/
theorem length_eq_of_bits {target target' : List UInt8}
    (h : start + new.length ≤ 8 * target.length)
    (hb : bits target' = replaceBits (bits target) start new) : target'.length = target.length := by
  have hlength := congrArg List.length hb
  rw [length_replaceBits (by rwa [length_bits]), length_bits, length_bits] at hlength
  omega

/-- A string in three parts, the middle one of which is replaced. -/
theorem replaceBits_append (upper lower : List Bool) {old : List Bool}
    (h : old.length = new.length) :
    replaceBits (upper ++ (old ++ lower)) upper.length new = upper ++ (new ++ lower) := by
  rw [replaceBits, List.take_left, ← h, ← List.drop_drop, List.drop_left, List.drop_left,
    List.append_assoc]

/-- The bits before a replaced segment stay. -/
theorem getElem?_replaceBits_of_lt (h : start + new.length ≤ string.length) {i : Nat}
    (hi : i < start) : (replaceBits string start new)[i]? = string[i]? := by
  rw [replaceBits, List.append_assoc,
    List.getElem?_append_left (by rw [List.length_take]; omega), List.getElem?_take_of_lt hi]

/-- The bits after a replaced segment stay. -/
theorem getElem?_replaceBits_of_le (h : start + new.length ≤ string.length) {i : Nat}
    (hi : start + new.length ≤ i) : (replaceBits string start new)[i]? = string[i]? := by
  have hl : (string.take start ++ new).length = start + new.length := by
    rw [List.length_append, List.length_take]
    omega
  rw [replaceBits, List.getElem?_append_right (by rw [hl]; exact hi), hl, List.getElem?_drop,
    Nat.add_sub_cancel' hi]

/-- The bits in the place of a replaced segment are the new ones. -/
theorem segmentBits_replaceBits (h : start + new.length ≤ string.length) :
    segmentBits (replaceBits string start new) start new.length = new := by
  have hl : (string.take start).length = start := by
    rw [List.length_take]
    omega
  rw [replaceBits, segmentBits, List.append_assoc,
    List.drop_append_of_le_length (Nat.le_of_eq hl.symm),
    List.drop_of_length_le (Nat.le_of_eq hl), List.nil_append, List.take_left]

/-- What comes after a replaced segment stays. -/
theorem drop_replaceBits (h : start + new.length ≤ string.length) :
    (replaceBits string start new).drop (start + new.length) =
      string.drop (start + new.length) := by
  have hl : (string.take start ++ new).length = start + new.length := by
    rw [List.length_append, List.length_take]
    omega
  rw [replaceBits, List.drop_left' hl]

/-- Replacing a segment by itself changes nothing. -/
theorem replaceBits_segmentBits {length : Nat} (h : start + length ≤ string.length) :
    replaceBits string start (segmentBits string start length) = string := by
  rw [replaceBits, length_segmentBits h, segmentBits, List.append_assoc, ← List.drop_drop,
    List.take_append_drop, List.take_append_drop]

/-- Replacing in the front of a string. -/
theorem replaceBits_take_append_drop {n : Nat} (h : start + new.length ≤ n) :
    replaceBits (string.take n) start new ++ string.drop n = replaceBits string start new := by
  have htail : (string.drop (start + new.length)).take (n - (start + new.length)) ++
      string.drop n = string.drop (start + new.length) := by
    conv_rhs => rw [← List.take_append_drop (n - (start + new.length)) (string.drop _)]
    rw [List.drop_drop, Nat.add_sub_cancel' h]
  rw [replaceBits, replaceBits, List.take_take, Nat.min_eq_left (by omega), List.drop_take,
    List.append_assoc, htail]

/-- Replacing in the tail of a string. -/
theorem take_append_replaceBits_drop (n : Nat) :
    string.take n ++ replaceBits (string.drop n) start new =
      replaceBits string (n + start) new := by
  rw [replaceBits, replaceBits, List.drop_drop, ← List.append_assoc, ← List.append_assoc,
    List.take_add, Nat.add_assoc]

end BinaryLayout.Bytes
