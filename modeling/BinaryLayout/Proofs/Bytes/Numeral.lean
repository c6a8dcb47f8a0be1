import BinaryLayout.Bytes.Bits
import Mathlib.Data.List.Induction
import Mathlib.Tactic.Ring

/-!
# Binary numerals

Numbers and their digits determine each other: `toBits width n` are the digits of `n` without those
above the `width` lowest, and `ofBits` takes digits back to their number. Numerals written one after
the other are a sum of two parts, the upper one shifted by the length of the lower one
(`ofBits_append`), and in turn the digits of a number can be cut at any place (`toBits_add`).

These are the only facts about numbers that reading and writing of bit fields need: a part of a
numeral is read by `extract_ofBits` and replaced by `splice_ofBits`.
-/

namespace BinaryLayout.Bytes

/-! ### Powers of two -/

@[simp]
theorem patterns_zero : patterns 0 = 1 := rfl

/-- One digit more makes twice as many patterns. -/
theorem patterns_succ (width : Nat) : patterns (width + 1) = 2 * patterns width :=
  Nat.mul_comm _ _

/-- The patterns of two runs of digits are pairs of them. -/
theorem patterns_add (a b : Nat) : patterns (a + b) = patterns a * patterns b :=
  Nat.pow_add 2 a b

theorem patterns_pos (width : Nat) : 0 < patterns width := Nat.two_pow_pos width

theorem patterns_le_patterns {a b : Nat} (h : a ≤ b) : patterns a ≤ patterns b :=
  Nat.pow_le_pow_right (by decide) h

theorem lowBits_of_lt {n width : Nat} (h : n < patterns width) : lowBits n width = n :=
  Nat.mod_eq_of_lt h

/-! ### Digits of numbers -/

/-- The digits of a number are as many as are asked for. -/
@[simp]
theorem length_toBits (width n : Nat) : (toBits width n).length = width := by
  induction width generalizing n with
  | zero => rfl
  | succ width ih => simp [toBits, ih]

/-- The digits of a number, cut before the `b` lowest. -/
theorem toBits_add (a b n : Nat) : toBits (a + b) n = toBits a (n / patterns b) ++ toBits b n := by
  induction b generalizing n with
  | zero => simp [toBits]
  | succ b ih =>
    rw [← Nat.add_assoc, toBits, ih, toBits, patterns_succ, Nat.div_div_eq_div_mul,
      List.append_assoc]

/-! ### Numbers of digits -/

@[simp]
theorem ofBits_nil : ofBits [] = 0 := rfl

/-- Digits are read on from a number by moving it up in front of them. -/
private theorem foldl_digits (n : Nat) (digits : List Bool) :
    digits.foldl (fun n digit => 2 * n + digit.toNat) n =
      n * patterns digits.length + ofBits digits := by
  induction digits generalizing n with
  | nil => simp
  | cons digit digits ih =>
    rw [ofBits, List.foldl_cons, List.foldl_cons, ih, ih, List.length_cons, patterns_succ]
    ring

/-- Numerals one after the other: the first counts as often as there are patterns of the second. -/
theorem ofBits_append (upper lower : List Bool) :
    ofBits (upper ++ lower) = ofBits upper * patterns lower.length + ofBits lower := by
  rw [ofBits, List.foldl_append, foldl_digits]
  rfl

/-- A single digit denotes zero or one. -/
@[simp]
theorem ofBits_singleton (digit : Bool) : ofBits [digit] = digit.toNat := by
  simp [ofBits]

/-- The first digit counts as often as there are patterns of the others. -/
theorem ofBits_cons (digit : Bool) (digits : List Bool) :
    ofBits (digit :: digits) = digit.toNat * patterns digits.length + ofBits digits := by
  rw [← List.singleton_append, ofBits_append, ofBits_singleton]

/-- The number that digits denote is less than the number of patterns of that width. -/
theorem ofBits_lt (digits : List Bool) : ofBits digits < patterns digits.length := by
  induction digits using List.reverseRecOn with
  | nil => simp
  | append_singleton digits digit ih =>
    rw [ofBits_append, List.length_append, List.length_singleton, patterns_succ, ofBits_singleton]
    have : digit.toNat < 2 := Bool.toNat_lt digit
    rw [patterns_succ, patterns_zero]
    omega

/-- A number written in `width` digits and read again has lost what is above them. -/
theorem ofBits_toBits (width n : Nat) : ofBits (toBits width n) = lowBits n width := by
  induction width generalizing n with
  | zero => simp [toBits, lowBits, Nat.mod_one]
  | succ width ih =>
    have hdigit : (n % 2 == 1).toNat = n % 2 := by
      rcases Nat.mod_two_eq_zero_or_one n with h | h <;> simp [h]
    rw [toBits, ofBits_append, ih, ofBits_singleton, hdigit, lowBits, lowBits, patterns_succ,
      Nat.mod_mul, List.length_singleton, patterns_succ, patterns_zero]
    ring

/-- Digits are those of the number that they denote. -/
theorem toBits_ofBits (digits : List Bool) : toBits digits.length (ofBits digits) = digits := by
  induction digits using List.reverseRecOn with
  | nil => rfl
  | append_singleton digits digit ih =>
    have hupper : (ofBits digits * 2 + digit.toNat) / 2 = ofBits digits := by
      have : digit.toNat < 2 := Bool.toNat_lt digit
      omega
    have hdigit : ((ofBits digits * 2 + digit.toNat) % 2 == 1) = digit := by
      cases digit <;> simp [Nat.add_mod]
    rw [List.length_append, List.length_singleton, toBits, ofBits_append, ofBits_singleton,
      List.length_singleton, patterns_succ, patterns_zero, Nat.mul_one, hupper, hdigit, ih]

/-- Numerals of one length denote different numbers. -/
theorem ofBits_inj {a b : List Bool} (hl : a.length = b.length) (h : ofBits a = ofBits b) :
    a = b := by
  rw [← toBits_ofBits a, ← toBits_ofBits b, hl, h]

/-- The lowest digits of a number are those of what it is above none of them. -/
@[simp]
theorem toBits_lowBits (width n : Nat) : toBits width (lowBits n width) = toBits width n := by
  have h := toBits_ofBits (toBits width n)
  rwa [length_toBits, ofBits_toBits] at h

/-! ### Two's complement -/

/-- The number of digits, taken for an integer in two's complement, is what the digits denote. -/
theorem signExtend_ofBits (digits : List Bool) :
    signExtend (ofBits digits) digits.length = ofSignedBits digits := by
  cases digits with
  | nil => rfl
  | cons digit digits =>
    have hlt := ofBits_lt digits
    have hpatterns : patterns (digit :: digits).length = 2 * patterns digits.length :=
      patterns_succ _
    have hcons := ofBits_cons digit digits
    rw [signExtend, ofSignedBits, List.head?_cons, hpatterns]
    -- the first digit decides in which half of the range the number lies
    cases digit with
    | false =>
      rw [if_neg (by simp)]
      exact Int.bmod_eq_of_le_mul_two (by omega) (by simp at hcons; omega)
    | true =>
      rw [if_pos rfl, Int.bmod_eq_iff (by omega)]
      simp only [Bool.toNat_true, Nat.one_mul] at hcons
      refine ⟨by omega, by omega, -1, by ring⟩

/-- The integers that digits denote in two's complement lie on both sides of zero, as far as one
digit less reaches. -/
theorem ofSignedBits_bounds (digits : List Bool) :
    -(patterns (digits.length - 1) : Int) ≤ ofSignedBits digits ∧
      ofSignedBits digits < patterns (digits.length - 1) := by
  cases digits with
  | nil => decide
  | cons digit digits =>
    have hlt := ofBits_lt digits
    have hcons := ofBits_cons digit digits
    have hpatterns : patterns (digit :: digits).length = 2 * patterns digits.length :=
      patterns_succ _
    rw [List.length_cons, Nat.add_sub_cancel, ofSignedBits, List.head?_cons, hpatterns]
    cases digit with
    | false =>
      rw [if_neg (by simp)]
      simp only [Bool.toNat_false, Nat.zero_mul, Nat.zero_add] at hcons
      omega
    | true =>
      rw [if_pos rfl]
      simp only [Bool.toNat_true, Nat.one_mul] at hcons
      omega

/-- Numerals of one length denote different integers in two's complement. -/
theorem ofSignedBits_inj {a b : List Bool} (hl : a.length = b.length)
    (h : ofSignedBits a = ofSignedBits b) : a = b := by
  have ha := ofBits_lt a
  have hb := ofBits_lt b
  rw [← signExtend_ofBits, ← signExtend_ofBits, signExtend, signExtend, ← hl] at h
  -- the integers are congruent to the numbers, which are below the modulus
  have hmod := congrArg (· % (patterns a.length : Int)) h
  simp only [Int.bmod_emod] at hmod
  rw [← hl] at hb
  rw [Int.emod_eq_of_lt (by omega) (by omega), Int.emod_eq_of_lt (by omega) (by omega)] at hmod
  exact ofBits_inj hl (by omega)

/-! ### Parts of numerals -/

variable (upper field lower : List Bool)

/-- The part of a numeral above the digits `lower`. -/
theorem extract_ofBits :
    extract (ofBits (upper ++ field ++ lower)) lower.length field.length = ofBits field := by
  have hlower : ofBits lower / patterns lower.length = 0 := Nat.div_eq_of_lt (ofBits_lt lower)
  rw [extract, ofBits_append, Nat.mul_comm, Nat.mul_add_div (patterns_pos _), hlower, Nat.add_zero,
    ofBits_append, lowBits, Nat.mul_comm, Nat.mul_add_mod, Nat.mod_eq_of_lt (ofBits_lt field)]

/-- A numeral with a part of it replaced. -/
theorem splice_ofBits (value : Nat) :
    splice (ofBits (upper ++ field ++ lower)) lower.length field.length value =
      ofBits (upper ++ toBits field.length value ++ lower) := by
  -- cut above the field and below it, the number gives the upper part and the lower one
  have hrest : ofBits (field ++ lower) < patterns (lower.length + field.length) := by
    have := ofBits_lt (field ++ lower)
    rwa [List.length_append, Nat.add_comm] at this
  have hupper : ofBits (upper ++ field ++ lower) / patterns (lower.length + field.length) =
      ofBits upper := by
    rw [List.append_assoc, ofBits_append, List.length_append, Nat.add_comm field.length,
      Nat.mul_comm, Nat.mul_add_div (patterns_pos _), Nat.div_eq_of_lt hrest, Nat.add_zero]
  have hlower : lowBits (ofBits (upper ++ field ++ lower)) lower.length = ofBits lower := by
    rw [ofBits_append, lowBits, Nat.mul_comm, Nat.mul_add_mod, Nat.mod_eq_of_lt (ofBits_lt lower)]
  rw [splice, hupper, hlower, ofBits_append, ofBits_append, ofBits_toBits, length_toBits,
    patterns_add]
  ring

end BinaryLayout.Bytes
