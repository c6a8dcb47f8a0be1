import BinaryLayout.Layout.Basic
import Mathlib.Data.List.Basic

/-!
# Signatures tell fields apart

The numbers in a signature are written in decimal, and between two of them stands a character that
is no digit, so that they can be read back. Hence fields with the same signature are the same
(`Field.signature_inj`), and a layout with the signature of a field is that field
(`Layout.eq_atom_of_signature`): the signatures of composites start with other letters.
-/

namespace BinaryLayout

/-- Numbers with the same digits are the same. -/
private theorem toDigits_inj {m n : Nat} (h : Nat.toDigits 10 m = Nat.toDigits 10 n) : m = n := by
  have hread := congrArg (Nat.ofDigitChars 10 · 0) h
  rwa [Nat.ofDigitChars_ten_toDigits, Nat.ofDigitChars_ten_toDigits] at hread

/-- The tag of a byte order tells which one it is. -/
theorem ByteOrder.tag_inj {a b : ByteOrder} (h : a.tag = b.tag) : a = b := by
  cases a <;> cases b <;> first | rfl | exact absurd h (by decide)

namespace Field

/-- Fields with the same signature are the same. -/
theorem signature_inj {a b : Field} (h : a.signature = b.signature) : a = b := by
  have hl := congrArg String.toList h
  -- the first letter tells the kind, the numbers after it are read back one by one
  cases a with
  | integer signedness size order =>
    cases b with
    | integer signedness' size' order' =>
      have hparts : signedness = signedness' ∧ Nat.toDigits 10 size = Nat.toDigits 10 size' ∧
          order.tag = order'.tag := by
        revert hl
        cases signedness <;> cases signedness' <;> simp [signature, String.toList_append]
      obtain ⟨rfl, hsize, horder⟩ := hparts
      rw [toDigits_inj hsize, ByteOrder.tag_inj horder]
    | bits | raw => cases signedness <;> simp [signature, String.toList_append] at hl
  | bits width offset =>
    cases b with
    | integer signedness => cases signedness <;> simp [signature, String.toList_append] at hl
    | bits width' offset' =>
      simp only [signature, String.toList_append, List.append_assoc, List.append_cancel_left_eq]
        at hl
      obtain ⟨hw, -, ho⟩ := (List.append_cons_inj_of_notMem Nat.underscore_not_in_toDigits
        Nat.underscore_not_in_toDigits).mp (by simpa using hl)
      rw [toDigits_inj hw, toDigits_inj ho]
    | raw => simp [signature, String.toList_append] at hl
  | raw size =>
    cases b with
    | integer signedness => cases signedness <;> simp [signature, String.toList_append] at hl
    | bits => simp [signature, String.toList_append] at hl
    | raw size' =>
      have hsize : Nat.toDigits 10 size = Nat.toDigits 10 size' := by
        simpa [signature, String.toList_append] using hl
      rw [toDigits_inj hsize]

end Field

/-- No composite has the signature of a field. -/
theorem Layout.eq_atom_of_signature {layout : Layout} {field : Field}
    (h : layout.signature = field.signature) : ∃ handle, layout = .atom handle field := by
  cases layout with
  | atom handle own => exact ⟨handle, by rw [Field.signature_inj h]⟩
  | array handle element count bitSize =>
    have hl := congrArg String.toList h
    rcases field with ⟨_ | _, _, _⟩ | _ | _ <;>
      simp [signature, Field.signature, String.toList_append] at hl
  | group handle labels members offsets bitSize =>
    have hl := congrArg String.toList h
    cases labels <;> rcases field with ⟨_ | _, _, _⟩ | _ | _ <;>
      simp [signature, Field.signature, String.toList_append] at hl

end BinaryLayout
