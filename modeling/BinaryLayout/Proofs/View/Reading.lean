import BinaryLayout.Proofs.Catalog.Issued
import BinaryLayout.Proofs.View.Placed

/-!
# Reading where things lie and reading from left to right

A placed view is read as the value of its layout in the segment of the target that it covers
(`Placed.read_eq_ok`): what the offset tables lead to is what comes next when the components are
taken one after the other.

Reading a layout from a catalog therefore gives what decoding from left to right gives
(`read_refines_decode`), and it looks at all bits of the layout and at no others
(`read_eq_read_iff`).
-/

namespace BinaryLayout

open Bytes (segmentBits)
open Layout (totalBits starts exactBitSizes)

namespace Layout

variable {target : List UInt8} {location : Location}

/-- Elements are read as so many members, each a stride after the one before it. -/
theorem readMembers_replicate (target : List UInt8) (location : Location)
    (element : Layout) (start count : Nat) :
    readMembers target.toArray (List.replicate count element)
        (starts (start * element.bitSize) (List.replicate count element)) location =
      (List.range' start count).mapM fun i =>
        element.read target.toArray (location.advance (i * element.bitSize)) := by
  induction count generalizing start with
  | zero => rfl
  | succ count ih =>
    rw [List.replicate_succ, starts, readMembers, List.range'_succ, List.mapM_cons, ← ih,
      Nat.succ_mul]

/-- A laid composite is read component by component. -/
theorem Laid.read_composite {property : Field → Prop} {layout : Layout} (h : Laid property layout)
    (hf : layout.field? = none) (hoffset : location.byte ≤ target.length) :
    layout.read target.toArray location =
      (readMembers target.toArray layout.components (starts 0 layout.components) location).map
        (assemble layout.labels) := by
  have hcheck : checkOffset target.toArray location.byte = .ok () := if_pos hoffset
  cases h with
  | atom h => simp [field?] at hf
  | @array handle element count he ha hl =>
    have hmembers := readMembers_replicate target location element 0 count
    rw [Nat.zero_mul] at hmembers
    rw [read, hcheck, Layout.components, hmembers, List.range_eq_range']
    rfl
  | group hm hn ha hl =>
    rw [read, hcheck]
    rfl

/-- Members are read one by one. -/
private theorem readMembers_eq_ok {members : List Layout} {offsets : List Nat} {values : List Value}
    (ho : offsets.length = members.length) (hv : values.length = members.length)
    (h : ∀ (i : Nat) (member : Layout) (offset : Nat) (value : Value), members[i]? = some member →
      offsets[i]? = some offset → values[i]? = some value →
        member.read target.toArray (location.advance offset) = .ok value) :
    readMembers target.toArray members offsets location = .ok values := by
  induction members generalizing offsets values with
  | nil =>
    obtain rfl := List.eq_nil_of_length_eq_zero hv
    rfl
  | cons member members ih =>
    obtain ⟨offset, offsets, rfl⟩ := List.exists_cons_of_length_eq_add_one ho
    obtain ⟨value, values, rfl⟩ := List.exists_cons_of_length_eq_add_one hv
    have hhead := h 0 member offset value rfl rfl rfl
    have htail := ih (by simpa using ho) (by simpa using hv) fun i => h (i + 1)
    rw [readMembers, hhead]
    change (readMembers _ members offsets location >>= _) = _
    rw [htail]
    rfl

end Layout

namespace View

variable {view : View} {target : List UInt8}

/-- The bits of a target that the view covers. -/
def covered (view : View) (target : List UInt8) : List Bool :=
  segmentBits (Bytes.bits target) view.location.position view.layout.exactBitSize

theorem Placed.length_covered (h : view.Placed target.length) :
    (view.covered target).length = view.layout.exactBitSize := by
  refine Bytes.length_segmentBits ?_
  rw [Bytes.length_bits, ← h.laid.bitSize_eq]
  exact h.fits

/-- A component covers its segment of what the whole covers. -/
theorem Placed.covered_component {i : Nat} {layout : Layout} (h : view.Placed target.length)
    (hi : view.layout.components[i]? = some layout) :
    (view.component i layout).covered target =
      segmentBits (view.covered target) (exactBitSizes (view.layout.components.take i))
        layout.exactBitSize := by
  have hsizes (layouts : List Layout) (hsub : ∀ layout ∈ layouts, layout ∈ view.layout.components) :
      exactBitSizes layouts = totalBits layouts :=
    Layout.exactBitSizes_eq fun layout hmem =>
      (h.laid.components layout (hsub layout hmem)).bitSize_eq
  have hmem := List.mem_of_getElem? hi
  have hcomposite := Layout.field?_eq_none_of_mem hmem
  have hend := Layout.totalBits_take_add_le hi
  rw [← h.laid.bitSize_composite hcomposite, h.laid.bitSize_eq,
    (h.laid.components layout hmem).bitSize_eq] at hend
  rw [hsizes _ fun _ hmem => List.mem_of_mem_take hmem, covered, covered,
    Bytes.segmentBits_segmentBits hend, (h.component hi).2]
  rfl

/-- The value of the layout in the bits that the view covers. -/
def value (view : View) (target : List UInt8) : Value := view.layout.ofBits (view.covered target)

/-- The value of a composite consists of the values of its components in what it covers. -/
theorem Placed.value_composite (h : view.Placed target.length) (hf : view.layout.field? = none) :
    view.value target = Layout.assemble view.layout.labels
      (Layout.valuesOf view.layout.components (view.covered target)) :=
  Layout.ofBits_composite hf h.length_covered

/-- A placed view is read as the value of its layout in the bits that it covers. -/
theorem Placed.read_eq_ok (h : view.Placed target.length) :
    view.read target = .ok (view.value target) := by
  rw [read, h.checkBounds_eq_ok]
  change view.layout.read target.toArray view.location = _
  obtain ⟨layout, location⟩ := view
  -- the view of a component is placed itself, which gives the induction over the tree
  induction layout using Layout.induction_components generalizing location with
  | atom handle field =>
    have hcheck : checkOffset target.toArray location.byte = .ok () := if_pos h.byte_le
    rw [value, Layout.ofBits_atom h.length_covered, Layout.read, hcheck]
    exact Field.read_eq_ok (h.liesAt rfl)
  | composite layout hl ih =>
    rw [h.laid.read_composite hl h.byte_le, h.value_composite hl]
    have hmembers : Layout.readMembers target.toArray layout.components
        (starts 0 layout.components) location =
          .ok (Layout.valuesOf layout.components (View.covered ⟨layout, location⟩ target)) := by
      refine Layout.readMembers_eq_ok (Layout.length_starts _ _) (Layout.length_valuesOf _ _) ?_
      intro i member offset value hmember hoffset hvalue
      obtain ⟨hi, -⟩ := List.getElem?_eq_some_iff.mp hmember
      rw [Layout.getElem?_starts hi, Nat.zero_add] at hoffset
      obtain rfl := Option.some.inj hoffset
      rw [Layout.getElem?_valuesOf, hmember, Option.map_some] at hvalue
      obtain rfl := Option.some.inj hvalue
      rw [← h.covered_component hmember]
      exact ih member (List.mem_of_getElem? hmember) _ (h.component hmember).1
    rw [hmembers]
    rfl

/-- The value of a placed view is the one that decoding takes from the bits it covers. -/
theorem Placed.read_eq_decode (h : view.Placed target.length) :
    ∃ value taken rest, (Bytes.bits target).drop view.location.position = taken ++ rest ∧
      taken.length = view.layout.bitSize ∧
      view.layout.decode (taken ++ rest) = some (value, rest) ∧ view.read target = .ok value := by
  have hlength := h.length_covered
  refine ⟨_, view.covered target, (Bytes.bits target).drop
    (view.location.position + view.layout.exactBitSize), ?_, ?_, ?_, h.read_eq_ok⟩
  · rw [covered, segmentBits, ← List.drop_drop, List.take_append_drop]
  · rw [hlength, h.laid.bitSize_eq]
  · rw [Layout.decode_eq_some _ (by rw [List.length_append, hlength]; omega), ← hlength,
      List.take_left, List.drop_left]
    rfl

/-- A placed view has one value in two targets exactly when they agree on the bits it covers. -/
theorem Placed.value_eq_value_iff {a b : List UInt8} (ha : view.Placed a.length)
    (hb : view.Placed b.length) :
    view.value a = view.value b ↔ ∀ i, view.location.position ≤ i →
      i < view.location.position + view.layout.bitSize →
        (Bytes.bits a)[i]? = (Bytes.bits b)[i]? := by
  have hfa := ha.fits
  have hfb := hb.fits
  have hvalues : view.value a = view.value b ↔ view.covered a = view.covered b :=
    ⟨Layout.ofBits_inj ha.laid ha.length_covered hb.length_covered, congrArg view.layout.ofBits⟩
  rw [ha.laid.bitSize_eq, ← Bytes.length_bits] at hfa hfb
  rw [hvalues, covered, covered, Bytes.segmentBits_eq_iff hfa hfb, ha.laid.bitSize_eq]
  constructor
  · intro h i hstart hend
    obtain ⟨j, rfl⟩ := Nat.exists_eq_add_of_le hstart
    exact h j (by omega)
  · exact fun h i hi => h _ (by omega) (by omega)

/-! ### Layouts from catalogs -/

variable {layout : Layout} {offset : Nat}

/-- Reading where things lie is decoding from left to right, and decoding takes just the bits of the
layout. -/
theorem read_refines_decode (hl : layout.Issued) (ht : target.length ≤ Extent.limit)
    (hb : (ofLayout layout offset).InBounds target.length) :
    ∃ value taken rest,
      (Bytes.bits target).drop (8 * offset + layout.bitOffset) = taken ++ rest ∧
        taken.length = layout.bitSize ∧
        layout.decode (taken ++ rest) = some (value, rest) ∧
        (ofLayout layout offset).read target = .ok value :=
  (placed_ofLayout hl.laid ht hb).read_eq_decode

theorem read_refines_decode_packet :
    ∃ value taken rest,
      (Bytes.bits [9, 9, 3, 0x85, 1, 0, 255, 255, 9]).drop (8 * 2 + 0) = taken ++ rest ∧
        taken.length = Layout.packet.bitSize ∧
        Layout.packet.decode (taken ++ rest) = some (value, rest) ∧
        (ofLayout Layout.packet 2).read [9, 9, 3, 0x85, 1, 0, 255, 255, 9] = .ok value :=
  read_refines_decode Layout.issued_packet (by decide) (by decide)

/-- Two targets have the same value exactly when they agree on the bits of the layout: none of them
is lost, and no others are looked at. -/
theorem read_eq_read_iff {a b : List UInt8} (hl : layout.Issued) (ha : a.length ≤ Extent.limit)
    (hb : b.length ≤ Extent.limit) (hia : (ofLayout layout offset).InBounds a.length)
    (hib : (ofLayout layout offset).InBounds b.length) :
    ∃ x y, (ofLayout layout offset).read a = .ok x ∧ (ofLayout layout offset).read b = .ok y ∧
      (x = y ↔ ∀ i, 8 * offset + layout.bitOffset ≤ i →
        i < 8 * offset + layout.bitOffset + layout.bitSize →
          (Bytes.bits a)[i]? = (Bytes.bits b)[i]?) := by
  have hpa := placed_ofLayout hl.laid ha hia
  have hpb := placed_ofLayout hl.laid hb hib
  exact ⟨_, _, hpa.read_eq_ok, hpb.read_eq_ok, hpa.value_eq_value_iff hpb⟩

theorem read_eq_read_iff_packet :
    ∃ x y, (ofLayout Layout.packet 0).read [3, 0x85, 1, 0, 255, 255] = .ok x ∧
      (ofLayout Layout.packet 0).read [3, 0x85, 1, 0, 255, 254, 7] = .ok y ∧
      (x = y ↔ ∀ i, 8 * 0 + 0 ≤ i → i < 8 * 0 + 0 + 48 →
        (Bytes.bits [3, 0x85, 1, 0, 255, 255])[i]? =
          (Bytes.bits [3, 0x85, 1, 0, 255, 254, 7])[i]?) :=
  read_eq_read_iff Layout.issued_packet (by decide) (by decide) (by decide) (by decide)

end View

end BinaryLayout
