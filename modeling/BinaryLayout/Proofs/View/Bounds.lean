import BinaryLayout.Proofs.Layout.Shape
import BinaryLayout.Proofs.View.Writing

/-!
# Reading succeeds exactly in bounds

The bytes that a view touches are compared with the target once, before anything is read. For a view
that is seated that is enough: in bounds it is read, and out of bounds it fails for this cause alone
(`Seated.read_eq_ok_iff`, `read_eq_error`). Nothing on the way down can fail any more, neither
at the end of the target nor behind it, where locations saturate.

Views to which keys lead from the view of a layout from a catalog are seated wherever it stands, so
that this holds of all of them. What is read has the shape of the layout
(`read_iff_inBounds_and_admits`).
-/

namespace BinaryLayout.View

variable {view : View} {target : List UInt8} {length : Nat}

/-- Keys lead from a seated view to a seated view. -/
theorem Seated.follow (h : view.Seated) {keys : List Key} {leaf : View}
    (hf : view.follow keys = .ok (some leaf)) : leaf.Seated := by
  induction keys generalizing view with
  | nil =>
    obtain rfl := Option.some.inj (Except.ok.inj hf)
    exact h
  | cons key keys ih =>
    obtain ⟨member, hm, hf⟩ := follow_cons_eq_ok hf
    obtain ⟨i, layout, -, hi, rfl⟩ := index_eq_ok h.laid hm
    exact ih (h.component hi) hf

/-! ### The check of the bounds -/

/-- Out of bounds the check fails, and it tells how many bytes are needed, the limit if there are
more. -/
theorem checkBounds_eq_error (hl : length < Extent.limit) (hb : ¬ view.InBounds length) :
    view.checkBounds length =
      .error (.tooShort (min (view.location.byte + view.byteSize) Extent.limit) length) := by
  rw [InBounds] at hb
  have hneeded : length < Extent.satAdd view.location.byte view.byteSize := by
    rw [Extent.satAdd]
    omega
  exact if_pos hneeded

/-- A view that is out of bounds is not read, for that cause. -/
theorem read_eq_error (ht : target.length < Extent.limit) (hb : ¬ view.InBounds target.length) :
    view.read target =
      .error (.tooShort (min (view.location.byte + view.byteSize) Extent.limit) target.length) := by
  rw [read, checkBounds_eq_error ht hb]
  rfl

/-- A seated view is read exactly in bounds. -/
theorem Seated.read_eq_ok_iff (h : view.Seated) (ht : target.length < Extent.limit) :
    (∃ value, view.read target = .ok value) ↔ view.InBounds target.length := by
  constructor
  · rintro ⟨value, hread⟩
    by_contra hb
    rw [read_eq_error ht hb] at hread
    cases hread
  · intro hb
    exact ⟨_, (h.placed (Nat.le_of_lt ht) hb).read_eq_ok⟩

/-! ### The shape of what is read -/

/-- The layout of a placed view admits the value of the view. -/
theorem Placed.admits_value (h : view.Placed target.length) :
    view.layout.Admits (view.value target) :=
  Layout.admits_ofBits h.laid h.length_covered

/-- The layout of a seated view admits what is read. -/
theorem Seated.admits_of_read (h : view.Seated) (ht : target.length < Extent.limit) {value : Value}
    (hread : view.read target = .ok value) : view.layout.Admits value := by
  have hb := (h.read_eq_ok_iff ht).mp ⟨value, hread⟩
  have hplaced := h.placed (Nat.le_of_lt ht) hb
  rw [hplaced.read_eq_ok] at hread
  exact Except.ok.inj hread ▸ hplaced.admits_value

/-! ### Layouts from catalogs -/

/-- A view to which any keys lead from a layout at any offset is read exactly if the bytes that it
touches are in the target, and the value has the shape of its layout; otherwise the target is too
short, and reading fails for no other cause. -/
theorem read_iff_inBounds_and_admits {layout : Layout} {offset : Nat} {keys : List Key}
    (hl : layout.Issued) (ht : target.length < Extent.limit)
    (hk : (ofLayout layout offset).follow keys = .ok (some view)) :
    ((∃ value, view.read target = .ok value) ↔
        view.location.byte + view.byteSize ≤ target.length) ∧
      (target.length < view.location.byte + view.byteSize →
        view.read target = .error
          (.tooShort (min (view.location.byte + view.byteSize) Extent.limit) target.length)) ∧
      ∀ value, view.read target = .ok value → view.layout.Admits value := by
  have hseated := (seated_ofLayout hl.laid offset).follow hk
  refine ⟨hseated.read_eq_ok_iff ht, fun hb => ?_, fun value => hseated.admits_of_read ht⟩
  exact read_eq_error ht (Nat.not_le_of_lt hb)

theorem read_iff_inBounds_and_admits_packet :
    ((∃ value, (View.mk (.atom ⟨0, 4⟩ (.integer .signed 2 .little)) ⟨5, 0⟩).read
        [9, 3, 0x85, 1, 0, 255] = .ok value) ↔ 5 + 2 ≤ 6) ∧
      (6 < 5 + 2 → (View.mk (.atom ⟨0, 4⟩ (.integer .signed 2 .little)) ⟨5, 0⟩).read
        [9, 3, 0x85, 1, 0, 255] = .error (.tooShort (min (5 + 2) Extent.limit) 6)) ∧
      ∀ value, (View.mk (.atom ⟨0, 4⟩ (.integer .signed 2 .little)) ⟨5, 0⟩).read
        [9, 3, 0x85, 1, 0, 255] = .ok value →
          (Layout.atom ⟨0, 4⟩ (.integer .signed 2 .little)).Admits value := by
  -- the keys lead to the second point, whose last byte the target does not have
  have hk : (ofLayout Layout.packet 1).follow [.name "points", .index 2] =
      .ok (some ⟨.atom ⟨0, 4⟩ (.integer .signed 2 .little), ⟨5, 0⟩⟩) := rfl
  exact read_iff_inBounds_and_admits Layout.issued_packet (by decide) hk

end BinaryLayout.View
