import BinaryLayout.Proofs.InPlace
import BinaryLayout.Proofs.View.Bounds

/-!
# Storing succeeds exactly for what a field accepts, in bounds

The checks of a store come in a fixed order: the layout is a field, the field accepts the value, the
target holds the bytes of the field. The first that fails tells the cause
(`write_eq_mismatch`, `write_eq_tooShort`), and a seated view that passes them is stored through
(`Seated.exists_write`). So a value that does not fit is refused as such in a target that is too
short as well.

There is always room for a seated view in bounds, since the bits of a valid field can be counted
(`Seated.hasRoom`), so that storing in place is made as a whole or not at all. Whatever the view, a
store that is refused leaves the target as it was (`store_iff_accepts_and_inBounds`).
-/

namespace BinaryLayout.View

open InPlace (allOrNothing)

variable {view : View} {field : Field} {target left : List UInt8} {value : Value}
  {cause : StoreError}

/-! ### Causes of a refusal -/

/-- Nothing is stored into a composite. -/
theorem write_eq_notImplemented (hf : view.layout.field? = none) :
    view.write target value = .error (.notImplemented view.layout.signature) := by
  rw [write, hf]

/-- A value that the field does not accept is refused, however long the target is. -/
theorem write_eq_mismatch (hf : view.layout.field? = some field) (hv : field.Accessible)
    (ha : ¬ field.Accepts value) :
    view.write target value = .error (.mismatch field.signature value) := by
  rw [write, hf]
  exact Outcome.bind_eq_error_iff.mpr (.inl (Field.encode_eq_error hv ha))

/-- A value that the field accepts is refused out of bounds. -/
theorem write_eq_tooShort (hf : view.layout.field? = some field) (hv : field.Accessible)
    (ha : field.Accepts value) (ht : target.length < Extent.limit)
    (hb : ¬ view.InBounds target.length) :
    view.write target value = .error
      (.tooShort (min (view.location.byte + view.byteSize) Extent.limit) target.length) := by
  obtain ⟨stored, hencode⟩ := Field.exists_encode hv ha
  rw [write, hf]
  refine Outcome.bind_eq_error_iff.mpr (.inr ⟨stored, hencode, ?_⟩)
  rw [checkBounds_eq_error ht hb]
  rfl

/-! ### Stores that are made -/

theorem Seated.accessible (h : view.Seated) (hf : view.layout.field? = some field) :
    field.Accessible := by
  have hlaid := h.laid
  obtain ⟨handle, hatom⟩ := Layout.field?_eq_some_iff.mp hf
  rw [hatom] at hlaid
  exact hlaid.property_atom.accessible

/-- A value that the field accepts is written in bounds. -/
theorem Seated.exists_write (h : view.Seated) (hf : view.layout.field? = some field)
    (ha : field.Accepts value) (ht : target.length < Extent.limit)
    (hb : view.InBounds target.length) : ∃ target', view.write target value = .ok target' := by
  obtain ⟨stored, hencode⟩ := Field.exists_encode (h.accessible hf) ha
  obtain ⟨target', hwrite, -⟩ := (h.placed (Nat.le_of_lt ht) hb).exists_write hf hencode
  exact ⟨target', hwrite⟩

/-- There is room for a seated view that passes the check of the bounds. -/
theorem Seated.hasRoom (h : view.Seated) {length : Nat} (hl : length < Extent.limit) :
    view.HasRoom length := by
  intro size hf hcheck
  have hb : view.InBounds length := by
    by_contra hb
    rw [checkBounds_eq_error hl hb] at hcheck
    cases hcheck
  have hfits := (h.placed (Nat.le_of_lt hl) hb).fits
  have hsize : view.layout.bitSize = 8 * size := by
    rw [h.laid.bitSize_eq]
    obtain ⟨handle, hatom⟩ := Layout.field?_eq_some_iff.mp hf
    rw [hatom]
    rfl
  rw [hsize, Location.position] at hfits
  omega

/-- Storing through a seated view is made as a whole or not at all. -/
theorem Seated.on_store (h : view.Seated) (ht : target.length < Extent.limit) (value : Value) :
    (view.store value).on target = some (allOrNothing target (view.write target value)) :=
  (store_settles view target value).eq_allOrNothing (h.hasRoom ht)

/-- A store that is refused leaves the target as it was. -/
theorem eq_of_store_error (h : (view.store value).on target = some (.error cause, left)) :
    left = target ∧ view.write target value = .error cause := by
  have hsettles := store_settles view target value
  rw [h] at hsettles
  rcases hsettles.of_some with ⟨_, hcause, hwrite, hleft⟩ | ⟨hok, -⟩
  · exact ⟨hleft, Except.error.inj hcause ▸ hwrite⟩
  · cases hok

/-! ### Layouts from catalogs -/

/-- Storing a value through a view to which any keys lead from a layout at any offset. A composite
is refused; a field refuses the values that it does not accept, be the target too short or not, and
the others if the bytes that the view touches are not in the target; all else is stored. No store
that is refused, through any view whatever, changes the target. -/
theorem store_iff_accepts_and_inBounds {layout : Layout} {offset : Nat} {keys : List Key}
    (hl : layout.Issued) (ht : target.length < Extent.limit)
    (hk : (ofLayout layout offset).follow keys = .ok (some view)) (value : Value) :
    (view.layout.field? = none → (view.store value).on target =
      some (.error (.notImplemented view.layout.signature), target)) ∧
    (∀ field, view.layout.field? = some field →
      (¬ field.Accepts value → (view.store value).on target =
        some (.error (.mismatch field.signature value), target)) ∧
      (field.Accepts value → target.length < view.location.byte + view.byteSize →
        (view.store value).on target = some (.error (.tooShort
          (min (view.location.byte + view.byteSize) Extent.limit) target.length), target)) ∧
      (field.Accepts value → view.location.byte + view.byteSize ≤ target.length →
        ∃ target', (view.store value).on target = some (.ok (), target') ∧
          view.write target value = .ok target')) ∧
    ∀ (other : View) (target : List UInt8) (value : Value) (cause : StoreError)
      (left : List UInt8), (other.store value).on target = some (.error cause, left) →
        left = target ∧ other.write target value = .error cause := by
  have hseated := (seated_ofLayout hl.laid offset).follow hk
  have hstore := hseated.on_store ht value
  refine ⟨?_, ?_, fun other target value cause left h => eq_of_store_error h⟩
  · intro hf
    rw [hstore, write_eq_notImplemented hf]
    rfl
  · intro field hf
    have hv := hseated.accessible hf
    refine ⟨?_, ?_, ?_⟩
    · intro ha
      rw [hstore, write_eq_mismatch hf hv ha]
      rfl
    · intro ha hb
      have hout : ¬ view.InBounds target.length := Nat.not_le_of_lt hb
      rw [hstore, write_eq_tooShort hf hv ha ht hout]
      rfl
    · intro ha hb
      obtain ⟨target', hwrite⟩ := hseated.exists_write hf ha ht hb
      rw [hstore, hwrite]
      exact ⟨target', rfl, rfl⟩

theorem store_iff_accepts_and_inBounds_packet :
    ((View.mk (.atom ⟨0, 2⟩ (.bits 7 1)) ⟨2, 1⟩).store (.int 128)).on [9, 3] =
        some (.error (.mismatch (Field.bits 7 1).signature (.int 128)), [9, 3]) ∧
      ((View.mk (.atom ⟨0, 2⟩ (.bits 7 1)) ⟨2, 1⟩).store (.int 127)).on [9, 3] =
        some (.error (.tooShort (min (2 + 1) Extent.limit) 2), [9, 3]) ∧
      ∃ target', ((View.mk (.atom ⟨0, 2⟩ (.bits 7 1)) ⟨2, 1⟩).store (.int 127)).on [9, 3, 0x85] =
          some (.ok (), target') ∧
        (View.mk (.atom ⟨0, 2⟩ (.bits 7 1)) ⟨2, 1⟩).write [9, 3, 0x85] (.int 127) =
          .ok target' := by
  -- the keys lead to the counter, bit 1 of the second byte and those after it
  have hk : (ofLayout Layout.packet 1).follow [.name "state", .index 2] =
      .ok (some ⟨.atom ⟨0, 2⟩ (.bits 7 1), ⟨2, 1⟩⟩) := rfl
  have hshort : ([9, 3] : List UInt8).length < Extent.limit := by decide
  have hlong : ([9, 3, 0x85] : List UInt8).length < Extent.limit := by decide
  refine ⟨?_, ?_, ?_⟩
  · exact ((store_iff_accepts_and_inBounds Layout.issued_packet hshort hk (.int 128)).2.1 _ rfl).1
      (by decide)
  · exact ((store_iff_accepts_and_inBounds Layout.issued_packet hshort hk (.int 127)).2.1 _ rfl).2.1
      (by decide) (by decide)
  · exact ((store_iff_accepts_and_inBounds Layout.issued_packet hlong hk (.int 127)).2.1 _ rfl).2.2
      (by decide) (by decide)

end BinaryLayout.View
