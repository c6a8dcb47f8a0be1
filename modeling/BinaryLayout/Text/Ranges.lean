/-!
# Ranges of code points

A set of code points is kept as a table of ranges, each given by its first and its last code point.
The ranges of such a table **increase**: none is empty, and each ends before the next one starts,
with a code point between them that belongs to neither. So a table lists every run of its code
points in full, and no code point twice (`Increasing.eq_of_mem`).
-/

namespace BinaryLayout.Text

/-- A code point lies in one of the ranges. -/
def inRanges (ranges : List (Nat × Nat)) (point : Nat) : Bool :=
  ranges.any fun (first, last) => first ≤ point && point ≤ last

/-- No range is empty, and there is a gap between any two of them. -/
def Increasing (ranges : List (Nat × Nat)) : Prop :=
  (∀ range ∈ ranges, range.1 ≤ range.2) ∧
    ranges.Pairwise fun before after => before.2 + 1 < after.1

/-- The ranges start at a code point or after it, and each is only compared with its neighbour. -/
def increasesFrom (start : Nat) : List (Nat × Nat) → Bool
  | [] => true
  | (first, last) :: ranges => start ≤ first && first ≤ last && increasesFrom (last + 2) ranges

section

variable {ranges : List (Nat × Nat)} {point : Nat}

theorem inRanges_iff :
    inRanges ranges point = true ↔ ∃ range ∈ ranges, range.1 ≤ point ∧ point ≤ range.2 := by
  simp [inRanges]

/-- Ranges increase if neighbours do. -/
theorem increasesFrom_iff {start : Nat} :
    increasesFrom start ranges = true ↔
      (∀ range ∈ ranges, start ≤ range.1) ∧ Increasing ranges := by
  induction ranges generalizing start with
  | nil => simp [increasesFrom, Increasing]
  | cons range ranges ih =>
    obtain ⟨first, last⟩ := range
    simp only [increasesFrom, Bool.and_eq_true, decide_eq_true_eq, ih, Increasing,
      List.forall_mem_cons, List.pairwise_cons]
    constructor
    · rintro ⟨⟨hstart, hfirst⟩, hlater, hbounds, hgaps⟩
      refine ⟨⟨hstart, fun range hmem => ?_⟩, ⟨hfirst, hbounds⟩, hlater, hgaps⟩
      have := hlater range hmem
      omega
    · rintro ⟨⟨hstart, -⟩, ⟨hfirst, hbounds⟩, hlater, hgaps⟩
      exact ⟨⟨hstart, hfirst⟩, hlater, hbounds, hgaps⟩

instance : Decidable (Increasing ranges) :=
  decidable_of_iff (increasesFrom 0 ranges = true) (by simp [increasesFrom_iff])

/-- No code point before the first range lies in a range. -/
theorem inRanges_of_lt {start : Nat} (h : increasesFrom start ranges = true) (hp : point < start) :
    inRanges ranges point = false := by
  obtain ⟨hstart, -⟩ := increasesFrom_iff.mp h
  rw [Bool.eq_false_iff, ne_eq, inRanges_iff]
  rintro ⟨range, hmem, hfirst, -⟩
  have := hstart range hmem
  omega

/-- A code point lies in one range of a table at most. -/
theorem Increasing.eq_of_mem (h : Increasing ranges) {left right : Nat × Nat}
    (hl : left ∈ ranges) (hr : right ∈ ranges) (hleft : left.1 ≤ point ∧ point ≤ left.2)
    (hright : right.1 ≤ point ∧ point ≤ right.2) : left = right := by
  obtain ⟨-, hgaps⟩ := h
  induction hgaps with
  | nil => cases hl
  | cons hbehind _ ih =>
    cases hl with
    | head =>
      cases hr with
      | head => rfl
      | tail _ hr =>
        have := hbehind right hr
        omega
    | tail _ hl =>
      cases hr with
      | head =>
        have := hbehind left hl
        omega
      | tail _ hr => exact ih hl hr

end

end BinaryLayout.Text
