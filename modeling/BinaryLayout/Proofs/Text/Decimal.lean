import BinaryLayout.Text.Digits
import Mathlib.Data.List.Basic
import Mathlib.Data.List.TakeWhile

/-!
# Runs of digits and the numbers they denote

A run of digits is read as an extent with checked arithmetic, and reading stops at the first digit
that leads beyond the limit. As more digits never make a number smaller, this comes to the same as
reading the run as a number first, however long it is, and comparing the number with the limit
(`extent?_eq_some_iff`).

The decimal digits of a number denote it (`decimal_toDigits`). In front of a text that does not
start with a digit they are a run by themselves.
-/

namespace BinaryLayout.Text

/-- The number denoted by the digits of `n` and then those of a run. -/
private def decimalFrom (n : Nat) (cs : List Char) : Nat :=
  cs.foldl (fun n c => 10 * n + digitValue c) n

private theorem decimalFrom_cons (n : Nat) (c : Char) (cs : List Char) :
    decimalFrom n (c :: cs) = decimalFrom (10 * n + digitValue c) cs := by
  rw [decimalFrom, List.foldl_cons, ← decimalFrom]

/-- More digits do not make a number smaller. -/
private theorem le_decimalFrom (n : Nat) (cs : List Char) : n ≤ decimalFrom n cs := by
  induction cs generalizing n with
  | nil => exact Nat.le_refl n
  | cons c cs ih =>
    have hnext := ih (10 * n + digitValue c)
    rw [decimalFrom_cons]
    omega

/-- Reading on from an extent gives the number that all the digits denote, if that is an extent. -/
private theorem extentFrom?_eq_some_iff {n m : Nat} {cs : List Char} (hn : n ≤ Extent.limit) :
    extentFrom? n cs = some m ↔ decimalFrom n cs = m ∧ m ≤ Extent.limit := by
  induction cs generalizing n with
  | nil =>
    rw [extentFrom?, Option.some.injEq, decimalFrom, List.foldl_nil]
    constructor
    · rintro rfl
      exact ⟨rfl, hn⟩
    · exact And.left
  | cons c cs ih =>
    have hle := le_decimalFrom (10 * n + digitValue c) cs
    simp only [extentFrom?, decimalFrom_cons, Option.bind_eq_bind, Option.bind_eq_some_iff,
      Extent.mul?_eq_some_iff, Extent.add?_eq_some_iff]
    constructor
    · rintro ⟨_, ⟨rfl, -⟩, _, ⟨rfl, hnext⟩, h⟩
      rw [Nat.mul_comm 10 n]
      exact (ih hnext).mp h
    · intro h
      -- the digits before the last one denote no larger number, and are read
      have hnext : n * 10 + digitValue c ≤ Extent.limit := by omega
      refine ⟨_, ⟨rfl, by omega⟩, _, ⟨rfl, hnext⟩, (ih hnext).mpr ?_⟩
      rwa [Nat.mul_comm n 10]

/-- A run is read as an extent exactly when the number that it denotes is one. -/
theorem extent?_eq_some_iff {cs : List Char} {n : Nat} :
    extent? cs = some n ↔ decimal cs = n ∧ n ≤ Extent.limit :=
  extentFrom?_eq_some_iff (Nat.zero_le _)

/-! ### Runs inside longer texts -/

section

variable {left right ds : List Char}

/-- A run of digits ends where a text begins that does not start with one. -/
theorem digits_append (hr : ∀ c ∈ right.head?, c.isDigit = false) :
    digits (left ++ right) = digits left := by
  have hright : right.takeWhile Char.isDigit = [] := by
    cases right with
    | nil => rfl
    | cons c right =>
      rw [List.takeWhile_cons, hr c rfl]
      rfl
  rw [digits, digits, List.takeWhile_append, hright]
  split
  · rename_i hall
    rw [List.append_nil, (List.takeWhile_prefix _).eq_of_length hall]
  · rfl

/-- Digits in front of a text that does not start with one are the run at its front. -/
theorem digits_append_of_forall (hd : ∀ c ∈ ds, c.isDigit = true)
    (hr : ∀ c ∈ right.head?, c.isDigit = false) : digits (ds ++ right) = ds := by
  rw [digits_append hr, digits, List.takeWhile_eq_self_iff.mpr hd]

theorem afterDigits_append_of_forall (hd : ∀ c ∈ ds, c.isDigit = true)
    (hr : ∀ c ∈ right.head?, c.isDigit = false) : afterDigits (ds ++ right) = right := by
  have h := digits_append_afterDigits (ds ++ right)
  rw [digits_append_of_forall hd hr] at h
  exact List.append_cancel_left h

end

/-! ### The digits of a number -/

private theorem isDigit_of_mem_toDigits {n : Nat} : ∀ c ∈ Nat.toDigits 10 n, c.isDigit = true :=
  fun _ => Nat.isDigit_of_mem_toDigits (by decide) (by decide)

/-- A number has at least one digit. -/
theorem exists_toDigits_eq_cons (n : Nat) :
    ∃ c cs, Nat.toDigits 10 n = c :: cs ∧ c.isDigit = true := by
  obtain ⟨c, cs, hcs⟩ := List.exists_cons_of_ne_nil (Nat.toDigits_ne_nil (n := n) (b := 10))
  exact ⟨c, cs, hcs, isDigit_of_mem_toDigits (n := n) c (by simp [hcs])⟩

/-- A number is what its digits denote. -/
theorem decimal_toDigits (n : Nat) : decimal (Nat.toDigits 10 n) = n :=
  Nat.ofDigitChars_eq_foldl.symm.trans Nat.ofDigitChars_ten_toDigits

/-- Only zero is written with a zero in front. -/
theorem eq_zero_of_head?_toDigits {n : Nat} (h : (Nat.toDigits 10 n).head? = some '0') :
    n = 0 := by
  induction n using Nat.strongRecOn with
  | ind n ih =>
    rcases Nat.lt_or_ge n 10 with hn | hn
    · rw [Nat.toDigits_of_lt_base hn, List.head?_cons, Option.some.injEq] at h
      exact Nat.digitChar_eq_zero.mp h
    · rw [Nat.toDigits_of_base_le (by decide) hn,
        List.head?_append_of_ne_nil _ Nat.toDigits_ne_nil] at h
      have := ih (n / 10) (by omega) h
      omega

/-- A number in front of a text that does not start with a digit is the run at its front. -/
theorem digits_toDigits_append (n : Nat) {rest : List Char}
    (hr : ∀ c ∈ rest.head?, c.isDigit = false) :
    digits (Nat.toDigits 10 n ++ rest) = Nat.toDigits 10 n :=
  digits_append_of_forall isDigit_of_mem_toDigits hr

theorem afterDigits_toDigits_append (n : Nat) {rest : List Char}
    (hr : ∀ c ∈ rest.head?, c.isDigit = false) :
    afterDigits (Nat.toDigits 10 n ++ rest) = rest :=
  afterDigits_append_of_forall isDigit_of_mem_toDigits hr

end BinaryLayout.Text
