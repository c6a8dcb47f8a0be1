import BinaryLayout.Format.Suffix
import BinaryLayout.Proofs.Text.Decimal
import Mathlib.Data.Nat.Digits.Defs

/-!
# Sizes are exact decimals

Reading a size takes the longest run of digits from a position on, and gives the number that the run
denotes in decimal, however many zeros it starts with, or fails if the number is no extent
(`sizeAt_eq`). Reading stops at the first digit that leads beyond the limit. The digits before it
denote no larger number than the whole run (`Text.extent?_eq_some_iff`), so the outcome depends on
the number alone, and more digits behind a number that is no extent do not help
(`sizeAt_of_prefix`).

A letter behind which digits may stand has the size that is read at the position after it
(`sizeOf_suffix_eq`).
-/

namespace BinaryLayout.Format

variable {token : Char} {format run rest : List UInt8} {position : Nat}

/-! ### Digits -/

private theorem isDigit_ofUInt8 (byte : UInt8) :
    (Char.ofUInt8 byte).isDigit = isDigitByte byte := rfl

private theorem digitValue_ofUInt8 (byte : UInt8) :
    Text.digitValue (Char.ofUInt8 byte) = byte.toNat - 0x30 := rfl

/-- The number that a run of digits denotes in decimal, its first digit being the most significant
one. -/
def decimalValue (run : List UInt8) : Nat :=
  Nat.ofDigits 10 (run.reverse.map fun byte => byte.toNat - 0x30)

@[simp] theorem decimalValue_nil : decimalValue [] = 0 := rfl

/-- The bytes of a run denote the number that they denote as characters. -/
private theorem decimal_eq_decimalValue (run : List UInt8) :
    Text.decimal (run.map Char.ofUInt8) = decimalValue run := by
  rw [Text.decimal, List.foldl_map, decimalValue, Nat.ofDigits_eq_foldr, List.foldr_map,
    List.foldr_reverse]
  simp only [digitValue_ofUInt8, Nat.cast_id, Nat.add_comm]

/-- More digits do not make a number smaller. -/
private theorem decimalValue_le_append (run more : List UInt8) :
    decimalValue run ≤ decimalValue (run ++ more) := by
  rw [decimalValue, decimalValue, List.reverse_append, List.map_append, Nat.ofDigits_append]
  have hpower : 0 < 10 ^ (more.reverse.map fun byte => byte.toNat - 0x30).length :=
    Nat.pow_pos (by decide)
  exact (Nat.le_mul_of_pos_left _ hpower).trans (Nat.le_add_left _ _)

/-! ### Runs of digits -/

/-- A digit more is read by moving the size up by ten and adding the digit. -/
private theorem extentFrom?_ofUInt8 (size : Nat) (byte : UInt8) (cs : List Char) :
    Text.extentFrom? size (Char.ofUInt8 byte :: cs) =
      (appendDigit? size byte).bind fun next => Text.extentFrom? next cs := by
  rw [Text.extentFrom?, digitValue_ofUInt8, appendDigit?]
  cases Extent.mul? size 10 <;> rfl

/-- Reading the digits at the front of bytes comes to reading them as an extent. -/
private theorem sizeFrom_append (hd : ∀ byte ∈ run, isDigitByte byte = true)
    (hr : ∀ byte ∈ rest.head?, isDigitByte byte = false) (size position : Nat) :
    sizeFrom token (run ++ rest) size position =
      (Text.extentFrom? size (run.map Char.ofUInt8)).elim (.error (.badSize token Extent.limit))
        fun size => .ok (size, position + run.length) := by
  induction run generalizing size position with
  | nil =>
    cases rest with
    | nil => rfl
    | cons byte rest =>
      rw [List.nil_append, sizeFrom, hr byte rfl]
      rfl
  | cons byte run ih =>
    obtain ⟨hbyte, hrun⟩ := List.forall_mem_cons.mp hd
    rw [List.cons_append, sizeFrom, if_pos hbyte, List.map_cons, extentFrom?_ofUInt8]
    cases appendDigit? size byte with
    | none => rfl
    | some next =>
      rw [List.length_cons, Nat.add_comm run.length, ← Nat.add_assoc]
      exact ih hrun next (position + 1)

/-- The longest run of digits at a byte position. -/
def digitsAt (format : List UInt8) (position : Nat) : List UInt8 :=
  (format.drop position).takeWhile isDigitByte

private theorem isDigitByte_of_mem_digitsAt :
    ∀ byte ∈ digitsAt format position, isDigitByte byte = true :=
  fun _ hmem => List.mem_takeWhile_imp hmem

/-- What follows the longest run does not start with a digit. -/
private theorem exists_digitsAt_append (format : List UInt8) (position : Nat) :
    ∃ rest, format.drop position = digitsAt format position ++ rest ∧
      ∀ byte ∈ rest.head?, isDigitByte byte = false := by
  refine ⟨_, List.takeWhile_append_dropWhile.symm, fun byte hmem => ?_⟩
  have hhead := List.head?_dropWhile_not isDigitByte (format.drop position)
  rwa [Option.mem_def.mp hmem] at hhead

/-- A run of digits at a position is at the front of the longest one. -/
private theorem prefix_digitsAt (hd : ∀ byte ∈ run, isDigitByte byte = true)
    (hrun : run <+: format.drop position) : run <+: digitsAt format position := by
  obtain ⟨rest, hrest⟩ := hrun
  rw [digitsAt, ← hrest, List.takeWhile_append_of_pos hd]
  exact List.prefix_append run _

/-! ### Sizes -/

/-- A run is read as an extent if the number that it denotes is one. -/
private theorem extent?_run (run : List UInt8) :
    Text.extent? (run.map Char.ofUInt8) =
      if decimalValue run ≤ Extent.limit then some (decimalValue run) else none := by
  split
  · exact Text.extent?_eq_some_iff.mpr ⟨decimal_eq_decimalValue run, ‹_›⟩
  · refine Option.eq_none_iff_forall_ne_some.mpr fun size hsize => ?_
    obtain ⟨hvalue, hle⟩ := Text.extent?_eq_some_iff.mp hsize
    rw [decimal_eq_decimalValue] at hvalue
    omega

/-- The number that the longest run denotes decides. -/
theorem sizeAt_eq (token : Char) (format : List UInt8) (position : Nat) :
    sizeAt token format position =
      if digitsAt format position = [] then .ok (none, position)
      else if decimalValue (digitsAt format position) ≤ Extent.limit then
        .ok (some (decimalValue (digitsAt format position)),
          position + (digitsAt format position).length)
      else .error (.badSize token Extent.limit) := by
  obtain ⟨rest, hcut, hr⟩ := exists_digitsAt_append format position
  rw [sizeAt, hcut, sizeFrom_append isDigitByte_of_mem_digitsAt hr, ← Text.extent?, extent?_run]
  cases digitsAt format position with
  | nil => simp [bind, Except.bind, pure, Except.pure]
  | cons byte run =>
    by_cases hle : decimalValue (byte :: run) ≤ Extent.limit
    · simp [hle, bind, Except.bind, pure, Except.pure]
    · simp [hle, bind, Except.bind]

/-- Once a run denotes no extent, nothing behind it helps. -/
theorem sizeAt_of_prefix (hd : ∀ byte ∈ run, isDigitByte byte = true)
    (hlimit : Extent.limit < decimalValue run) (hrun : run <+: format.drop position) :
    sizeAt token format position = .error (.badSize token Extent.limit) := by
  obtain ⟨more, hmore⟩ := prefix_digitsAt hd hrun
  have hle := decimalValue_le_append run more
  rw [hmore] at hle
  have hne : digitsAt format position ≠ [] := by
    intro hnil
    rw [hnil, decimalValue_nil] at hle
    omega
  rw [sizeAt_eq, if_neg hne, if_neg (by omega)]

/-! ### Digits behind a letter -/

/-- The run of digits at a position is the same for bytes and for characters. -/
private theorem digits_drop (format : List UInt8) (position : Nat) :
    Text.digits ((format.drop position).map Char.ofUInt8) =
      (digitsAt format position).map Char.ofUInt8 := by
  have hdigit : Char.isDigit ∘ Char.ofUInt8 = isDigitByte := funext isDigit_ofUInt8
  rw [Text.digits, List.takeWhile_map, hdigit, digitsAt]

/-- The size of a letter behind which digits may stand is the one at the position after the
letter. -/
theorem sizeOf_suffix_eq {letter : Letter} (hs : letter.sized = true)
    (token : Char) (format : List UInt8) (position : Nat) :
    sizeOf token letter (suffix letter ((format.drop position).map Char.ofUInt8)) =
      (sizeAt token format position).map fun read => read.1.getD letter.size := by
  rw [sizeAt_eq, suffix, if_pos hs, digits_drop, sizeOf, extent?_run]
  simp only [List.isEmpty_map, List.isEmpty_iff]
  split_ifs <;> rfl

/-- The size at a position of a format string is the number that the longest run of digits there
denotes in decimal, and the position after it is the one where the run ends. There is no size if
no digit stands there, and a number beyond the limit is the cause of a failure, also with anything
behind its digits, in whatever format string they stand. Reading a letter comes to the same. -/
theorem sizeAt_exact (token : Char) (format : List UInt8) (position : Nat) :
    (sizeAt token format position =
      if digitsAt format position = [] then .ok (none, position)
      else if decimalValue (digitsAt format position) ≤ Extent.limit then
        .ok (some (decimalValue (digitsAt format position)),
          position + (digitsAt format position).length)
      else .error (.badSize token Extent.limit)) ∧
    (∀ (longer : List UInt8) (start : Nat),
      Extent.limit < decimalValue (digitsAt format position) →
      digitsAt format position <+: longer.drop start →
        sizeAt token longer start = .error (.badSize token Extent.limit)) ∧
    ∀ letter : Letter, letter.sized = true →
      sizeOf token letter (suffix letter ((format.drop position).map Char.ofUInt8)) =
        (sizeAt token format position).map (fun read => read.1.getD letter.size) ∧
      (suffix letter ((format.drop position).map Char.ofUInt8)).length =
        (digitsAt format position).length := by
  refine ⟨sizeAt_eq token format position, fun longer start hlimit hrun => ?_,
    fun letter hs => ⟨sizeOf_suffix_eq hs token format position, ?_⟩⟩
  · exact sizeAt_of_prefix isDigitByte_of_mem_digitsAt hlimit hrun
  · rw [suffix, if_pos hs, digits_drop, List.length_map]

end BinaryLayout.Format
