import BinaryLayout.Json.Basic
import Mathlib.Data.Nat.Basic

/-!
# Plain documents

Whether the arrays and objects of a plain document are nested too deep is a matter of its **depth**
alone, as soon as its strings denote texts and its numbers are finite. The numbers that extents are
written as are finite (`Number.isFinite_ofNat`): rounding to 53 bits at most doubles them.
-/

namespace BinaryLayout.Json

mutual

/-- How deep arrays and objects are nested. -/
def depth : Json → Nat
  | .array items => itemsDepth items + 1
  | .object members => membersDepth members + 1
  | _ => 0

/-- The depth of the deepest item. -/
def itemsDepth : List Json → Nat
  | [] => 0
  | item :: items => max item.depth (itemsDepth items)

/-- The depth of the deepest value. -/
def membersDepth : List (Option String × Json) → Nat
  | [] => 0
  | (_, value) :: members => max value.depth (membersDepth members)

end

variable {items : List Json} {members : List (Option String × Json)} {n : Nat}

/-- Items are nested no deeper than the deepest of them. -/
private theorem itemsDepth_le_iff : itemsDepth items ≤ n ↔ ∀ item ∈ items, item.depth ≤ n := by
  induction items with
  | nil => simp [itemsDepth]
  | cons item items ih => rw [itemsDepth, Nat.max_le, ih, List.forall_mem_cons]

private theorem membersDepth_le_iff :
    membersDepth members ≤ n ↔ ∀ member ∈ members, member.2.depth ≤ n := by
  induction members with
  | nil => simp [membersDepth]
  | cons member members ih => rw [membersDepth, Nat.max_le, ih, List.forall_mem_cons]

private theorem itemsArePlainTo_iff :
    itemsArePlainTo items n = true ↔ ∀ item ∈ items, item.isPlainTo n = true := by
  induction items with
  | nil => simp [itemsArePlainTo]
  | cons item items ih => rw [itemsArePlainTo, Bool.and_eq_true, ih, List.forall_mem_cons]

/-- Members are plain if their names denote texts and their values are plain. -/
private theorem membersArePlainTo_iff : membersArePlainTo members n = true ↔
    ∀ member ∈ members, member.1.isSome = true ∧ member.2.isPlainTo n = true := by
  induction members with
  | nil => simp [membersArePlainTo]
  | cons member members ih =>
    rw [membersArePlainTo, Bool.and_eq_true, Bool.and_eq_true, ih, List.forall_mem_cons]

/-- An array of plain items is plain as deep as it is nested. -/
theorem isPlainTo_array_iff
    (h : ∀ item ∈ items, ∀ n, item.isPlainTo n = true ↔ item.depth ≤ n) (n : Nat) :
    (array items).isPlainTo n = true ↔ (array items).depth ≤ n := by
  cases n with
  | zero => simp [isPlainTo, depth]
  | succ n =>
    rw [isPlainTo, depth, itemsArePlainTo_iff, Nat.add_le_add_iff_right, itemsDepth_le_iff]
    exact forall₂_congr fun item hmem => h item hmem n

/-- An object of plain values is plain as deep as it is nested. -/
theorem isPlainTo_object_iff (hn : ∀ member ∈ members, member.1.isSome = true)
    (h : ∀ member ∈ members, ∀ n, member.2.isPlainTo n = true ↔ member.2.depth ≤ n) (n : Nat) :
    (object members).isPlainTo n = true ↔ (object members).depth ≤ n := by
  cases n with
  | zero => simp [isPlainTo, depth]
  | succ n =>
    rw [isPlainTo, depth, membersArePlainTo_iff, Nat.add_le_add_iff_right, membersDepth_le_iff]
    refine forall₂_congr fun member hmem => ?_
    rw [h member hmem n, and_iff_right (hn member hmem)]

/-! ### Extents -/

/-- Rounding to 53 bits at most doubles a number. -/
private theorem Number.roundTo53_le (n : Nat) : roundTo53 n ≤ 2 * n := by
  rw [roundTo53]
  split
  · omega
  · rename_i hlog
    have hn : n ≠ 0 := by
      rintro rfl
      exact hlog (by decide)
    have hunit : 1 <<< (n.log2 - 52) ≤ n := by
      rw [Nat.one_shiftLeft]
      exact Nat.le_trans (Nat.pow_le_pow_right (by decide) (Nat.sub_le ..)) (Nat.log2_self_le hn)
    have hdiv := Nat.div_mul_le_self n (1 <<< (n.log2 - 52))
    simp only
    split
    · rw [Nat.add_mul]
      omega
    · omega

/-- A number that an extent is written as is finite. -/
theorem Number.isFinite_ofNat (h : n ≤ Extent.limit) : (ofNat n).isFinite = true := by
  have hle := roundTo53_le n
  have hscientific : (ofNat n).scientific = (n, 0) := by
    have hleading : leadingDigits n 0 = (n, 0) := by
      rw [leadingDigits, if_neg (Nat.not_lt.mpr h)]
    rw [scientific, ofNat, hleading]
    rfl
  have hone : roundTo53 (Nat.pow 10 (Int.toNat 0)) = 1 := by
    decide
  have hlimit : 2 * Extent.limit < 1 <<< 1024 - 1 <<< 970 := by
    decide
  have hbound : roundTo53 n < 1 <<< 1024 - 1 <<< 970 := by
    omega
  rw [isFinite, hscientific]
  simp only [hone, Nat.mul_one, decide_eq_true hbound]
  simp

end BinaryLayout.Json
