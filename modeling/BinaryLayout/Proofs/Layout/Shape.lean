import BinaryLayout.Proofs.Layout.Decode
import BinaryLayout.Value.Shape
import Mathlib.Data.List.Forall2

/-!
# Values have the shapes of their layouts

What a layout denotes in a string of its size is a value that the layout admits
(`Layout.admits_ofBits`): the integers, truth values and byte strings of the fields are in range,
and lists and records have just the members that the layout has. Conversely, the kind of a value
that a layout admits is known from the layout (`exists_record_of_admits` and its like).

A field accepts every value that it admits (`Field.accepts_of_admits`), and it stores it as it is
(`Field.canonical_eq_self`). What is read from a field can thus be stored in it again.
-/

namespace BinaryLayout

namespace Field

variable {field : Field} {value : Value}

/-- Bits of the size of a field denote a value that the field admits. -/
theorem admits_ofBits {string : List Bool} (h : string.length = field.exactBitSize) :
    field.Admits (field.ofBits string) := by
  cases field with
  | integer signedness size order =>
    have hlength : (order.arrangeBits string).length = 8 * size := by
      rw [order.length_arrangeBits h]
      exact h
    cases signedness with
    | signed =>
      have hbounds := Bytes.ofSignedBits_bounds (order.arrangeBits string)
      rw [hlength] at hbounds
      exact hbounds
    | unsigned =>
      have hlt := Bytes.ofBits_lt (order.arrangeBits string)
      rw [hlength] at hlt
      exact hlt
  | bits width offset =>
    have hlt := Bytes.ofBits_lt string
    rw [h] at hlt
    rw [Field.ofBits]
    split
    · assumption
    · exact ⟨‹width ≠ 1›, hlt⟩
  | raw size =>
    obtain ⟨target, htarget, rfl⟩ := Bytes.exists_bits h
    rw [Field.ofBits, Bytes.map_ofBits_octets_bits]
    exact htarget

/-! ### Kinds of admitted values -/

theorem exists_int_of_admits {size : Nat} {order : ByteOrder}
    (h : (integer .signed size order).Admits value) : ∃ i, value = .int i := by
  cases value with
  | int i => exact ⟨i, rfl⟩
  | _ => cases h

theorem exists_uint_of_admits {size : Nat} {order : ByteOrder}
    (h : (integer .unsigned size order).Admits value) : ∃ n, value = .uint n := by
  cases value with
  | uint n => exact ⟨n, rfl⟩
  | _ => cases h

theorem exists_bytes_of_admits {size : Nat} (h : (raw size).Admits value) :
    ∃ bs, value = .bytes bs := by
  cases value with
  | bytes bs => exact ⟨bs, rfl⟩
  | _ => cases h

/-- A single bit has truth values, several have numbers. -/
theorem exists_of_admits_bits {width offset : Nat} (h : (bits width offset).Admits value) :
    (width = 1 ∧ ∃ b, value = .bool b) ∨ (width ≠ 1 ∧ ∃ n, value = .uint n) := by
  cases value with
  | bool b => exact .inl ⟨h, b, rfl⟩
  | uint n => exact .inr ⟨h.1, n, rfl⟩
  | _ => cases h

/-! ### Storing what is admitted -/

/-- A field accepts every value that it admits. -/
theorem accepts_of_admits (ha : field.Admits value) : field.Accepts value := by
  cases field with
  | integer signedness size order =>
    cases signedness with
    | signed =>
      obtain ⟨i, rfl⟩ := exists_int_of_admits ha
      exact ⟨i, rfl, ha⟩
    | unsigned =>
      obtain ⟨n, rfl⟩ := exists_uint_of_admits ha
      exact ⟨n, rfl, Int.natCast_nonneg n, Int.ofNat_lt.mpr ha⟩
  | bits width offset =>
    rcases exists_of_admits_bits ha with ⟨hw, b, rfl⟩ | ⟨-, n, rfl⟩
    · exact .inl ⟨hw, rfl⟩
    · exact .inr ⟨n, rfl, Int.natCast_nonneg n, Int.ofNat_lt.mpr ha.2⟩
  | raw size =>
    obtain ⟨bytes, rfl⟩ := exists_bytes_of_admits ha
    exact ⟨bytes, rfl, Nat.le_of_eq ha⟩

/-- A value that a field admits is in the form in which it is read back. -/
theorem canonical_eq_self (ha : field.Admits value) : field.canonical value = value := by
  cases field with
  | integer signedness size order =>
    cases signedness <;> cases value <;> first | rfl | cases ha
  | bits width offset =>
    cases value with
    | bool b => rfl
    | uint n => exact if_neg ha.1
    | _ => cases ha
  | raw size =>
    cases value with
    | bytes bytes =>
      obtain rfl : bytes.length = size := ha
      rw [canonical, Nat.sub_self, List.replicate_zero, List.append_nil]
    | _ => cases ha

end Field

namespace Layout

/-! ### Kinds of admitted values -/

section

variable {handle : Handle} {count bitSize : Nat} {members : List Layout} {offsets : List Nat}
  {value : Value}

/-- What an array admits are lists of values that its element admits. -/
theorem exists_list_of_admits_array {element : Layout}
    (h : (array handle element count bitSize).Admits value) :
    ∃ values, value = .list values ∧ ∀ value ∈ values, element.Admits value := by
  cases value with
  | list values => exact ⟨values, rfl, h.2⟩
  | _ => cases h

/-- What a sequence admits are lists of values that its members admit, one for one. -/
theorem exists_list_of_admits_group
    (h : (group handle .positional members offsets bitSize).Admits value) :
    ∃ values, value = .list values ∧ AdmitAll members values := by
  cases value with
  | list values => exact ⟨values, rfl, h⟩
  | _ => cases h

/-- The names in a record are those of the layout. -/
theorem exists_record_of_admits {names : List String}
    (h : (group handle (.named names) members offsets bitSize).Admits value) :
    ∃ values, value = .record (names.zip values) ∧ names.length = values.length ∧
      AdmitAll members values := by
  cases value with
  | record named =>
    obtain ⟨hnames, hvalues⟩ := h
    refine ⟨named.map Prod.snd, ?_, by rw [← hnames, List.length_map, List.length_map], hvalues⟩
    rw [← List.zip_of_prod hnames rfl]
  | _ => cases h

end

/-! ### Values of whole layouts -/

/-- Members admit values if each of them admits its own. -/
private theorem admitAll_of_forall₂ {members : List Layout} {values : List Value}
    (h : List.Forall₂ Admits members values) : AdmitAll members values := by
  induction h with
  | nil => trivial
  | cons h hs ih => exact ⟨h, ih⟩

/-- A composite admits what is put together from values that its components admit. -/
private theorem admits_assemble {layout : Layout} (hl : layout.field? = none) {values : List Value}
    (hf : layout.labels.Fit values.length) (h : List.Forall₂ Admits layout.components values) :
    layout.Admits (assemble layout.labels values) := by
  cases layout with
  | atom handle field => simp [field?] at hl
  | array handle element count bitSize =>
    change List.Forall₂ Admits (List.replicate count element) values at h
    have hlength : values.length = count := by rw [← h.length_eq, List.length_replicate]
    refine ⟨hlength, fun value hmem => ?_⟩
    obtain ⟨i, hi, rfl⟩ := List.getElem_of_mem hmem
    have hadmits := h.get (by rwa [h.length_eq]) hi
    rwa [List.get_eq_getElem, List.getElem_replicate] at hadmits
  | group handle labels members offsets bitSize =>
    cases labels with
    | positional => exact admitAll_of_forall₂ h
    | named names =>
      refine ⟨List.map_fst_zip (Nat.le_of_eq hf.1), ?_⟩
      rw [List.map_snd_zip (Nat.le_of_eq hf.1.symm)]
      exact admitAll_of_forall₂ h

/-- Layouts admit what they denote in the parts of a string, one for one, if each of them admits
what it denotes. -/
private theorem forall₂_valuesOf {layouts : List Layout}
    (hm : ∀ layout ∈ layouts, ∀ string : List Bool, string.length = layout.exactBitSize →
      layout.Admits (layout.ofBits string))
    {string : List Bool} (h : string.length = exactBitSizes layouts) :
    List.Forall₂ Admits layouts (valuesOf layouts string) := by
  induction layouts generalizing string with
  | nil => exact .nil
  | cons layout layouts ih =>
    rw [exactBitSizes] at h
    refine .cons (hm layout (by simp) _ (by rw [List.length_take]; omega)) ?_
    exact ih (fun other hmem => hm other (List.mem_cons_of_mem _ hmem))
      (by rw [List.length_drop]; omega)

variable {property : Field → Prop}

/-- A laid layout admits its value in every string of its size. -/
theorem admits_ofBits {layout : Layout} (h : Laid property layout) {string : List Bool}
    (hs : string.length = layout.exactBitSize) : layout.Admits (layout.ofBits string) := by
  induction layout using induction_components generalizing string with
  | atom handle field =>
    rw [ofBits_atom hs]
    exact Field.admits_ofBits hs
  | composite layout hl ih =>
    have hfit : layout.labels.Fit (valuesOf layout.components string).length := by
      rw [length_valuesOf]
      exact h.labels_fit
    rw [ofBits_composite hl hs]
    rw [exactBitSize_composite hl] at hs
    refine admits_assemble hl hfit (forall₂_valuesOf (fun component hmem string => ?_) hs)
    exact ih component hmem (h.components component hmem)

end Layout

end BinaryLayout
