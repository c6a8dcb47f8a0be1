import BinaryLayout.Extent

/-!
# Runs of decimal digits

A decimal numeral inside a longer text: `digits` is the longest run of the digits `0` to `9` at
the front of a text, `afterDigits` what follows it, and `decimal` the number that a run denotes,
however long it is and however many zeros it starts with. `extent?` reads a run as an extent: it
adds digit after digit with checked arithmetic and stops at the first one that leads beyond the
limit.
-/

namespace BinaryLayout.Text

/-- The longest run of digits at the front. -/
def digits (cs : List Char) : List Char := cs.takeWhile Char.isDigit

/-- The text after the run of digits at the front. -/
def afterDigits (cs : List Char) : List Char := cs.dropWhile Char.isDigit

/-- The number that a digit stands for. -/
def digitValue (c : Char) : Nat := c.toNat - '0'.toNat

/-- The number that a run of digits denotes, read from its most significant digit. -/
def decimal (cs : List Char) : Nat := cs.foldl (fun n c => 10 * n + digitValue c) 0

/-- The extent denoted by the digits of `n` and then those of a run. -/
def extentFrom? (n : Nat) : List Char → Option Nat
  | [] => some n
  | c :: cs => do
    let tens ← Extent.mul? n 10
    let next ← Extent.add? tens (digitValue c)
    extentFrom? next cs

/-- The extent that a run of digits denotes, if the number is one. -/
def extent? (cs : List Char) : Option Nat := extentFrom? 0 cs

/-! ### Laws -/

/-- Nothing is lost between the run and the rest. -/
theorem digits_append_afterDigits (cs : List Char) : digits cs ++ afterDigits cs = cs :=
  List.takeWhile_append_dropWhile

/-- A run holds digits only. -/
theorem isDigit_of_mem_digits {cs : List Char} {c : Char} (h : c ∈ digits cs) :
    c.isDigit = true := by
  have := List.all_takeWhile (l := cs) (p := Char.isDigit)
  exact List.all_eq_true.1 this c h

end BinaryLayout.Text
