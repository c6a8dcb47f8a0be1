import BinaryLayout.Proofs.Layout.Decode

/-!
# Views placed in a target

A view is **seated** when its layout is laid from valid fields and what has to start on a byte
boundary does so. It is **placed** in a target of a given length when it lies, from its location on,
within the bits of the target as well. A target has no more bytes than can be addressed.

The view of a layout at an offset is seated, and so are the views of the members of a seated view
(`Seated.component`), also where locations saturate. A seated view is placed as soon as the bytes it
touches are in bounds (`Seated.placed`). Then its members are placed too (`Placed.component`), and
start exactly as many bits further on as the offset tables say: no location on the way saturates.
-/

namespace BinaryLayout

open Layout (totalBits)

/-- A laid layout starts inside of its first byte only if it is a bit field, and those are short. -/
private theorem Layout.Laid.bitOffset_fits {layout : Layout} (h : layout.Laid Field.Valid) :
    layout.bitOffset < 8 ∧ (layout.isBitPacked = false → layout.bitOffset = 0) ∧
      layout.bitOffset + layout.bitSize ≤ Extent.limit := by
  have hle := h.bitSize_le
  have hzero : 0 + layout.bitSize ≤ Extent.limit := (Nat.zero_add _).trans_le hle
  cases h with
  | array | group => exact ⟨Nat.zero_lt_succ _, fun _ => rfl, hzero⟩
  | @atom handle field hv =>
    cases field with
    | integer | raw => exact ⟨Nat.zero_lt_succ _, fun _ => rfl, hzero⟩
    | bits width offset =>
      obtain ⟨-, hw, ho⟩ := hv
      refine ⟨Nat.lt_succ_of_le ho, nofun, ?_⟩
      change offset + width ≤ Extent.limit
      rw [Extent.limit]
      omega

namespace View

/-- Every byte that the view touches is in a target of the length. -/
def InBounds (view : View) (length : Nat) : Prop := view.location.byte + view.byteSize ≤ length

instance (view : View) (length : Nat) : Decidable (view.InBounds length) :=
  inferInstanceAs (Decidable (_ ≤ _))

/-- The layout of the view is laid from valid fields, and the view starts at a bit where it may. The
byte it starts in may be any, also one that no target has. -/
structure Seated (view : View) : Prop where
  laid : view.layout.Laid Field.Valid
  bit_lt : view.location.bit < 8
  aligned : view.layout.isBitPacked = false → view.location.bit = 0
  countable : view.location.bit + view.layout.bitSize ≤ Extent.limit

/-- The layout of the view is laid from valid fields and lies in a target of the length. -/
structure Placed (view : View) (length : Nat) : Prop extends Seated view where
  fits : view.location.position + view.layout.bitSize ≤ 8 * length
  addressable : length ≤ Extent.limit

variable {view : View} {length : Nat}

/-- A placed view is in bounds. -/
theorem Placed.inBounds (h : view.Placed length) : view.InBounds length := by
  have hfits := h.fits
  rw [Location.position] at hfits
  rw [InBounds, byteSize, Extent.satAdd_of_le h.countable, Extent.bytesFor]
  omega

/-- A seated view is placed in every target in which it is in bounds. -/
theorem Seated.placed (h : view.Seated) (ht : length ≤ Extent.limit) (hb : view.InBounds length) :
    view.Placed length := by
  refine ⟨h, ?_, ht⟩
  -- the bytes in bounds are those of all bits from the start of the first byte on
  rw [InBounds, byteSize, Extent.satAdd_of_le h.countable, Extent.bytesFor] at hb
  rw [Location.position]
  omega

theorem Placed.byte_le (h : view.Placed length) : view.location.byte ≤ length :=
  Nat.le_trans (Nat.le_add_right _ _) h.inBounds

theorem Placed.checkBounds_eq_ok (h : view.Placed length) : view.checkBounds length = .ok () := by
  have hb := h.inBounds
  rw [InBounds] at hb
  rw [checkBounds, Extent.satAdd_of_le (Nat.le_trans hb h.addressable)]
  exact if_neg (by omega)

/-- A placed view of a field is where the field lies. -/
theorem Placed.liesAt (h : view.Placed length) {field : Field}
    (hf : view.layout.field? = some field) : field.LiesAt view.location length := by
  obtain ⟨layout, location⟩ := view
  obtain ⟨handle, rfl⟩ := Layout.field?_eq_some_iff.mp hf
  have hfits := h.fits
  rw [h.laid.bitSize_eq] at hfits
  exact ⟨h.laid.property_atom.accessible, h.bit_lt, h.aligned, hfits⟩

/-- A layout laid from valid fields is seated at every offset. -/
theorem seated_ofLayout {layout : Layout} (hl : layout.Laid Field.Valid) (offset : Nat) :
    (ofLayout layout offset).Seated := by
  obtain ⟨hbit, haligned, hcount⟩ := hl.bitOffset_fits
  exact ⟨hl, hbit, haligned, hcount⟩

/-- A layout laid from valid fields is placed at an offset if the bytes it touches are there. -/
theorem placed_ofLayout {layout : Layout} (hl : layout.Laid Field.Valid) {offset : Nat}
    (ht : length ≤ Extent.limit) (hb : (ofLayout layout offset).InBounds length) :
    (ofLayout layout offset).Placed length :=
  (seated_ofLayout hl offset).placed ht hb

/-- The view of a component, which starts where the components before it end. -/
def component (view : View) (i : Nat) (layout : Layout) : View :=
  ⟨layout, view.location.advance (totalBits (view.layout.components.take i))⟩

/-- A component lies within the bits of the whole. -/
private theorem Seated.component_le (h : view.Seated) {i : Nat} {layout : Layout}
    (hi : view.layout.components[i]? = some layout) :
    totalBits (view.layout.components.take i) + layout.bitSize ≤ view.layout.bitSize := by
  have hcomposite := Layout.field?_eq_none_of_mem (List.mem_of_getElem? hi)
  rw [h.laid.bitSize_composite hcomposite]
  exact Layout.totalBits_take_add_le hi

/-- The members of a seated view are seated, however far they are from the start of a target. -/
theorem Seated.component {i : Nat} {layout : Layout} (h : view.Seated)
    (hi : view.layout.components[i]? = some layout) : (view.component i layout).Seated := by
  have hmem := List.mem_of_getElem? hi
  have hcomposite := Layout.field?_eq_none_of_mem hmem
  have hbits := h.component_le hi
  have hcount := h.countable
  have hbit : (view.component i layout).location.bit =
      (view.location.bit + totalBits (view.layout.components.take i)) % 8 :=
    view.location.bit_advance (by omega)
  refine ⟨h.laid.components layout hmem, ?_, fun hp => ?_, ?_⟩
  · rw [hbit]
    exact Nat.mod_lt _ (by decide)
  · -- a composite with a component that is not bit packed starts on a byte boundary itself
    have hwhole : view.layout.isBitPacked = false := by
      rw [Bool.eq_false_iff, Ne, Layout.isBitPacked_composite hcomposite]
      intro hall
      rw [View.component] at hp
      rw [hall layout hmem] at hp
      cases hp
    have hstart := h.laid.aligned.getElem? hi hp
    rw [hbit, h.aligned hwhole]
    exact hstart
  · have hmod := Nat.mod_le (view.location.bit + totalBits (view.layout.components.take i)) 8
    rw [hbit]
    change _ + layout.bitSize ≤ _
    omega

/-- The members of a placed view are placed, and start as far on as the offset tables say. -/
theorem Placed.component {i : Nat} {layout : Layout} (h : view.Placed length)
    (hi : view.layout.components[i]? = some layout) :
    (view.component i layout).Placed length ∧
      (view.component i layout).location.position =
        view.location.position + totalBits (view.layout.components.take i) := by
  have hbits := h.component_le hi
  have hcount := h.countable
  have hfits := h.fits
  have hposition : (view.component i layout).location.position =
      view.location.position + totalBits (view.layout.components.take i) :=
    view.location.position_advance (by omega) (Nat.le_trans (by omega) hfits) h.addressable
  refine ⟨⟨h.toSeated.component hi, ?_, h.addressable⟩, hposition⟩
  rw [hposition]
  change _ + layout.bitSize ≤ _
  omega

end View

end BinaryLayout
