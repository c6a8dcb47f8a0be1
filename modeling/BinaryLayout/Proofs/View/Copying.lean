import BinaryLayout.Proofs.View.Bounds
import BinaryLayout.Proofs.View.Fields

/-!
# Copying a layout field by field

`View.copy` writes into a target, view after view, the value that each view has in a source. What a
field reads can be stored in it, and the bits of the field are then those of the source
(`Placed.exists_write_value`). As each write puts the bits of the source where they are in the
source, it does not matter in which order fields are copied, nor whether they overlap
(`exists_copy`).

The fields of a view cover all of its bits and no others, so that copying them in any order copies
what the view covers (`Placed.exists_copy_fields`, `copy_fields_any_order`).
-/

namespace BinaryLayout.View

/-- The target after the value that each view has in the source is written through the view, one
after the other. -/
def copy (source : List UInt8) : List View → List UInt8 → Except StoreError (List UInt8)
  | [], target => .ok target
  | view :: views, target => do
    let value ← (view.read source).mapError AccessError.toStoreError
    let target ← view.write target value
    copy source views target

variable {root view : View} {source target : List UInt8}

/-! ### One field -/

/-- The value that a field has in the source can be written into the target; its bits become those
of the source, and the others stay. -/
theorem Placed.exists_write_value (hs : view.Placed source.length) (ht : view.Placed target.length)
    {field : Field} (hf : view.layout.field? = some field) :
    ∃ target', view.write target (view.value source) = .ok target' ∧
      target'.length = target.length ∧
      (∀ i, view.Covers i → (Bytes.bits target')[i]? = (Bytes.bits source)[i]?) ∧
      ∀ i, ¬ view.Covers i → (Bytes.bits target')[i]? = (Bytes.bits target)[i]? := by
  obtain ⟨handle, hatom⟩ := Layout.field?_eq_some_iff.mp hf
  have hadmits : field.Admits (view.value source) := by
    have hadmits := hs.admits_value
    rw [hatom] at hadmits
    exact hadmits
  have hvalid : field.Valid := by
    have hlaid := hs.laid
    rw [hatom] at hlaid
    exact hlaid.property_atom
  obtain ⟨stored, hencode⟩ :=
    Field.exists_encode hvalid.accessible (Field.accepts_of_admits hadmits)
  obtain ⟨target', hwrite, -⟩ := ht.exists_write hf hencode
  obtain ⟨hlength, houtside, hvalue⟩ := ht.write_value hf hwrite
  -- what is read back is the value from the source, so the bits are those of the source
  rw [Field.canonical_eq_self hadmits] at hvalue
  have ht' : view.Placed target'.length := hlength ▸ ht
  refine ⟨target', hwrite, hlength, ?_, ?_⟩
  · intro i hi
    exact (ht'.value_eq_value_iff hs).mp hvalue i hi.1 hi.2
  · intro i hi
    refine houtside i ?_
    rw [Covers] at hi
    omega

/-! ### Fields one after the other -/

/-- Copying fields succeeds. Bits that one of them covers become those of the source, and the others
stay. -/
theorem exists_copy {views : List View}
    (hv : ∀ view ∈ views, view.Placed source.length ∧ view.Placed target.length ∧
      ∃ field, view.layout.field? = some field) :
    ∃ final, copy source views target = .ok final ∧ final.length = target.length ∧
      (∀ i, (∃ view ∈ views, view.Covers i) →
        (Bytes.bits final)[i]? = (Bytes.bits source)[i]?) ∧
      ∀ i, (∀ view ∈ views, ¬ view.Covers i) →
        (Bytes.bits final)[i]? = (Bytes.bits target)[i]? := by
  induction views generalizing target with
  | nil => exact ⟨target, rfl, rfl, by simp, by simp⟩
  | cons view views ih =>
    obtain ⟨hs, ht, field, hf⟩ := hv view (by simp)
    obtain ⟨target', hwrite, hlength, hinside, houtside⟩ := hs.exists_write_value ht hf
    have htail : ∀ other ∈ views, other.Placed source.length ∧ other.Placed target'.length ∧
        ∃ field, other.layout.field? = some field := by
      rw [hlength]
      exact fun other hmem => hv other (List.mem_cons_of_mem _ hmem)
    obtain ⟨final, hcopy, hlength', hcovered, hrest⟩ := ih htail
    refine ⟨final, ?_, hlength'.trans hlength, ?_, ?_⟩
    · have hread : (view.read source).mapError AccessError.toStoreError =
          .ok (view.value source) := Outcome.mapError_eq_ok_iff.mpr hs.read_eq_ok
      exact Outcome.bind_eq_ok_iff.mpr ⟨_, hread, Outcome.bind_eq_ok_iff.mpr ⟨_, hwrite, hcopy⟩⟩
    · intro i hi
      -- a later field has put the bit of the source there, or else the first one has
      by_cases hlater : ∃ other ∈ views, other.Covers i
      · exact hcovered i hlater
      · have hnone : ∀ other ∈ views, ¬ other.Covers i := by simpa using hlater
        have hfirst : view.Covers i := by
          obtain ⟨other, hmem, hother⟩ := hi
          rcases List.mem_cons.mp hmem with rfl | hmem
          · exact hother
          · exact absurd hother (hnone other hmem)
        rw [hrest i hnone, hinside i hfirst]
    · intro i hi
      rw [hrest i fun other hmem => hi other (List.mem_cons_of_mem _ hmem),
        houtside i (hi view (by simp))]

/-! ### All fields of a view -/

/-- Copying all fields of a placed view, in any order, copies the bits that the view covers and no
others. -/
theorem Placed.exists_copy_fields (hs : root.Placed source.length) (ht : root.Placed target.length)
    {order : List View} (ho : ∀ view, view ∈ order ↔ root.FieldOf view) :
    ∃ final, copy source order target = .ok final ∧ final.length = target.length ∧
      (∀ i, root.Covers i → (Bytes.bits final)[i]? = (Bytes.bits source)[i]?) ∧
      ∀ i, ¬ root.Covers i → (Bytes.bits final)[i]? = (Bytes.bits target)[i]? := by
  have hfields : ∀ view ∈ order, view.Placed source.length ∧ view.Placed target.length ∧
      ∃ field, view.layout.field? = some field := by
    intro view hmem
    have hview := (ho view).mp hmem
    exact ⟨hview.placed hs, hview.placed ht, hview.exists_field?⟩
  obtain ⟨final, hcopy, hlength, hcovered, hrest⟩ := exists_copy hfields
  refine ⟨final, hcopy, hlength, ?_, ?_⟩
  · intro i hi
    obtain ⟨view, hview, hcovers⟩ := hs.exists_fieldOf hi
    exact hcovered i ⟨view, (ho view).mpr hview, hcovers⟩
  · intro i hi
    refine hrest i fun view hmem hcovers => hi ?_
    exact ((ho view).mp hmem).covers hs hcovers

/-- Targets whose bits are, in the same places, those of one target or those of another are the
same. -/
private theorem eq_of_bits {final final' : List UInt8} {inside : Nat → Prop}
    (hin : ∀ i, inside i → (Bytes.bits final)[i]? = (Bytes.bits source)[i]?)
    (hout : ∀ i, ¬ inside i → (Bytes.bits final)[i]? = (Bytes.bits target)[i]?)
    (hin' : ∀ i, inside i → (Bytes.bits final')[i]? = (Bytes.bits source)[i]?)
    (hout' : ∀ i, ¬ inside i → (Bytes.bits final')[i]? = (Bytes.bits target)[i]?) :
    final = final' := by
  refine Bytes.bits_inj (List.ext_getElem? fun i => ?_)
  by_cases hi : inside i
  · rw [hin i hi, hin' i hi]
  · rw [hout i hi, hout' i hi]

/-! ### Layouts from catalogs -/

/-- Copying a layout from one target to another, field by field, succeeds in every order of its
fields and always gives the same bytes: the layout is read from them as from the source, and the
other bits are those of the target. Copied onto itself, the target does not change. -/
theorem copy_fields_any_order {layout : Layout} {offset : Nat} (hl : layout.Issued)
    (hs : source.length ≤ Extent.limit) (ht : target.length ≤ Extent.limit)
    (hbs : (ofLayout layout offset).InBounds source.length)
    (hbt : (ofLayout layout offset).InBounds target.length) :
    ∃ final,
      (∀ order : List View, (∀ view, view ∈ order ↔ (ofLayout layout offset).FieldOf view) →
        copy source order target = .ok final) ∧
      final.length = target.length ∧
      (∃ value, (ofLayout layout offset).read source = .ok value ∧
        (ofLayout layout offset).read final = .ok value) ∧
      (∀ i, (i < 8 * offset + layout.bitOffset ∨
          8 * offset + layout.bitOffset + layout.bitSize ≤ i) →
        (Bytes.bits final)[i]? = (Bytes.bits target)[i]?) ∧
      (source = target → final = target) := by
  have hps := placed_ofLayout hl.laid hs hbs
  have hpt := placed_ofLayout hl.laid ht hbt
  have horder : ∀ view, view ∈ (ofLayout layout offset).fieldViews ↔
      (ofLayout layout offset).FieldOf view := fun view => mem_fieldViews_iff hps.laid
  obtain ⟨final, -, hlength, hin, hout⟩ := hps.exists_copy_fields hpt horder
  refine ⟨final, ?_, hlength, ?_, ?_, ?_⟩
  · intro order ho
    obtain ⟨final', hcopy, -, hin', hout'⟩ := hps.exists_copy_fields hpt ho
    rw [hcopy, eq_of_bits hin hout hin' hout']
  · have hpf : (ofLayout layout offset).Placed final.length := hlength ▸ hpt
    refine ⟨_, hps.read_eq_ok, ?_⟩
    rw [hpf.read_eq_ok, (hpf.value_eq_value_iff hps).mpr fun i hlow hhigh => hin i ⟨hlow, hhigh⟩]
  · intro i hi
    refine hout i ?_
    rintro ⟨hlow, hhigh⟩
    change 8 * offset + layout.bitOffset ≤ i at hlow
    change i < 8 * offset + layout.bitOffset + layout.bitSize at hhigh
    omega
  · rintro rfl
    exact eq_of_bits hin hout (fun _ _ => rfl) (fun _ _ => rfl)

theorem copy_fields_any_order_packet :
    ∃ final : List UInt8,
      (∀ order : List View, (∀ view, view ∈ order ↔ (ofLayout Layout.packet 1).FieldOf view) →
        copy [9, 3, 0x85, 1, 0, 255, 255] order [7, 6, 5, 4, 3, 2, 1, 0] = .ok final) ∧
      final.length = 8 ∧
      (∃ value, (ofLayout Layout.packet 1).read [9, 3, 0x85, 1, 0, 255, 255] = .ok value ∧
        (ofLayout Layout.packet 1).read final = .ok value) ∧
      ∀ i, (i < 8 ∨ 56 ≤ i) →
        (Bytes.bits final)[i]? = (Bytes.bits [7, 6, 5, 4, 3, 2, 1, 0])[i]? := by
  have hs : ([9, 3, 0x85, 1, 0, 255, 255] : List UInt8).length ≤ Extent.limit := by decide
  have ht : ([7, 6, 5, 4, 3, 2, 1, 0] : List UInt8).length ≤ Extent.limit := by decide
  have hbs : (ofLayout Layout.packet 1).InBounds 7 := by decide
  have hbt : (ofLayout Layout.packet 1).InBounds 8 := by decide
  obtain ⟨final, hcopy, hlength, hvalue, houtside, -⟩ :=
    copy_fields_any_order Layout.issued_packet hs ht hbs hbt
  exact ⟨final, hcopy, hlength, hvalue, houtside⟩

end BinaryLayout.View
