import BinaryLayout.Proofs.View.Writing

/-!
# The fields of a view

The **fields** of a view are the views of single fields to which keys lead from it (`FieldOf`).
Those of a composite are those of its components (`fieldOf_composite_iff`), so that
`View.fieldViews` lists them from left to right (`mem_fieldViews_iff`).

The fields of a placed view are placed and lie within what the view covers (`FieldOf.placed`), and
together they cover all of it (`Placed.exists_fieldOf`).
-/

namespace BinaryLayout

open Layout (totalBits starts)

/-! ### Fields in order -/

namespace Layout

mutual

/-- The views of the fields of a layout at a location, from left to right. -/
def fieldViews : Layout → Location → List View
  | .atom handle field, location => [⟨.atom handle field, location⟩]
  | .array _ element count _, location =>
    (List.range count).flatMap fun i => element.fieldViews (location.advance (i * element.bitSize))
  | .group _ _ members offsets _, location => fieldViewsOf members offsets location

/-- The views of the fields of members at their offsets from a location. -/
def fieldViewsOf : List Layout → List Nat → Location → List View
  | member :: members, offset :: offsets, location =>
    member.fieldViews (location.advance offset) ++ fieldViewsOf members offsets location
  | _, _, _ => []

end

private theorem mem_fieldViewsOf_iff {members : List Layout} {start : Nat} {location : Location}
    {view : View} : view ∈ fieldViewsOf members (starts start members) location ↔
      ∃ (i : Nat) (member : Layout), members[i]? = some member ∧
        view ∈ member.fieldViews (location.advance (start + totalBits (members.take i))) := by
  induction members generalizing start with
  | nil => simp [fieldViewsOf]
  | cons head members ih =>
    rw [starts, fieldViewsOf, List.mem_append, ih]
    constructor
    · rintro (h | ⟨i, member, hi, h⟩)
      · exact ⟨0, head, rfl, h⟩
      · rw [Nat.add_assoc] at h
        exact ⟨i + 1, member, hi, h⟩
    · rintro ⟨i, member, hi, h⟩
      cases i with
      | zero =>
        obtain rfl := Option.some.inj hi
        exact .inl h
      | succ i =>
        rw [List.take_succ_cons, totalBits_cons, ← Nat.add_assoc] at h
        exact .inr ⟨i, member, hi, h⟩

end Layout

namespace View

/-- The views of the fields of a view, from left to right. -/
def fieldViews (view : View) : List View := view.layout.fieldViews view.location

/-- The view is one of a single field, to which keys lead from the other. -/
def FieldOf (root view : View) : Prop :=
  view.layout.isAtomic = true ∧ ∃ keys, root.follow keys = .ok (some view)

variable {root view : View} {property : Field → Prop} {length : Nat}

/-- The fields listed for a laid composite are those listed for its components. -/
private theorem mem_fieldViews_composite (h : root.layout.Laid property)
    (hf : root.layout.field? = none) :
    view ∈ root.fieldViews ↔ ∃ i layout, root.layout.components[i]? = some layout ∧
      view ∈ (root.component i layout).fieldViews := by
  obtain ⟨layout, location⟩ := root
  cases h with
  | atom h => simp [Layout.field?] at hf
  | group hm hn ha hl =>
    rw [fieldViews, Layout.fieldViews, Layout.mem_fieldViewsOf_iff]
    simp only [Nat.zero_add]
    rfl
  | @array handle element count he ha hl =>
    have hcomponent {i : Nat} (hi : i < count) :
        element.fieldViews (location.advance (i * element.bitSize)) =
          (component ⟨.array handle element count (count * element.bitSize), location⟩ i
            element).fieldViews := by
      rw [fieldViews, component, Layout.components, List.take_replicate,
        Layout.totalBits_replicate, Nat.min_eq_left (Nat.le_of_lt hi)]
    rw [fieldViews, Layout.fieldViews, List.mem_flatMap]
    simp only [List.mem_range, Layout.components, List.getElem?_replicate,
      Option.ite_none_right_eq_some, Option.some.injEq]
    constructor
    · rintro ⟨i, hi, h⟩
      exact ⟨i, element, ⟨hi, rfl⟩, hcomponent hi ▸ h⟩
    · rintro ⟨i, _, ⟨hi, rfl⟩, h⟩
      exact ⟨i, hi, (hcomponent hi).symm ▸ h⟩

/-! ### Fields by keys -/

/-- A single field is its own and only field. -/
theorem fieldOf_atom_iff {handle : Handle} {field : Field} {location : Location} :
    FieldOf ⟨.atom handle field, location⟩ view ↔ view = ⟨.atom handle field, location⟩ := by
  constructor
  · rintro ⟨-, keys, h⟩
    cases keys with
    | nil => exact (Option.some.inj (Except.ok.inj h)).symm
    | cons key keys =>
      -- no key selects a member of a single field
      obtain ⟨member, hm, -⟩ := follow_cons_eq_ok h
      cases hm
  · rintro rfl
    exact ⟨rfl, [], rfl⟩

/-- The position of a component, counted from one, leads to the view of it. -/
private theorem index_component (h : root.layout.Laid property) {i : Nat} {layout : Layout}
    (hi : root.layout.components[i]? = some layout) :
    root.index (.index (i + 1)) = .ok (some (root.component i layout)) := by
  have hcomposite := Layout.field?_eq_none_of_mem (List.mem_of_getElem? hi)
  have hatomic : ¬ root.layout.isAtomic = true := by
    rw [Layout.isAtomic, hcomposite]
    exact Bool.false_ne_true
  rw [index, if_neg hatomic]
  change Except.ok (root.member? i) = _
  rw [View.member?, h.member?_eq, hi]
  rfl

/-- The fields of a laid composite are those of its components. -/
theorem fieldOf_composite_iff (h : root.layout.Laid property) (hf : root.layout.field? = none) :
    root.FieldOf view ↔ ∃ i layout, root.layout.components[i]? = some layout ∧
      (root.component i layout).FieldOf view := by
  constructor
  · rintro ⟨hatomic, keys, hk⟩
    cases keys with
    | nil =>
      obtain rfl := Option.some.inj (Except.ok.inj hk)
      rw [Layout.isAtomic, hf] at hatomic
      cases hatomic
    | cons key keys =>
      obtain ⟨member, hm, hk⟩ := follow_cons_eq_ok hk
      obtain ⟨i, layout, -, hi, rfl⟩ := index_eq_ok h hm
      exact ⟨i, layout, hi, hatomic, keys, hk⟩
  · rintro ⟨i, layout, hi, hatomic, keys, hk⟩
    refine ⟨hatomic, .index (i + 1) :: keys, ?_⟩
    rw [follow, index_component h hi]
    exact hk

/-- The fields listed for a view of a laid layout are its fields. -/
theorem mem_fieldViews_iff (h : root.layout.Laid property) :
    view ∈ root.fieldViews ↔ root.FieldOf view := by
  obtain ⟨layout, location⟩ := root
  induction layout using Layout.induction_components generalizing location with
  | atom handle field => rw [fieldOf_atom_iff, fieldViews, Layout.fieldViews, List.mem_singleton]
  | composite layout hl ih =>
    rw [mem_fieldViews_composite h hl, fieldOf_composite_iff h hl]
    refine exists_congr fun i => exists_congr fun component => and_congr_right fun hi => ?_
    have hmem := List.mem_of_getElem? hi
    exact ih component hmem _ (h.components component hmem)

/-! ### Fields of placed views -/

theorem FieldOf.exists_field? (h : root.FieldOf view) :
    ∃ field, view.layout.field? = some field :=
  Option.isSome_iff_exists.mp h.1

/-- The view covers the bit. -/
def Covers (view : View) (i : Nat) : Prop :=
  view.location.position ≤ i ∧ i < view.location.position + view.layout.bitSize

/-- The fields of a placed view are placed. -/
theorem FieldOf.placed (h : root.FieldOf view) (hp : root.Placed length) : view.Placed length := by
  obtain ⟨-, keys, hk⟩ := h
  exact (hp.follow hk).1

/-- A field of a placed view covers no bit that the view does not cover. -/
theorem FieldOf.covers (h : root.FieldOf view) (hp : root.Placed length) {i : Nat}
    (hi : view.Covers i) : root.Covers i := by
  obtain ⟨-, keys, hk⟩ := h
  obtain ⟨-, hstart, hend⟩ := hp.follow hk
  exact ⟨hstart.trans hi.1, hi.2.trans_le hend⟩

/-- A bit that a placed composite covers is covered by one of its components. -/
private theorem Placed.exists_component (h : root.Placed length) (hf : root.layout.field? = none)
    {i : Nat} (hi : root.Covers i) :
    ∃ j layout, root.layout.components[j]? = some layout ∧
      (root.component j layout).Covers i := by
  obtain ⟨hstart, hend⟩ := hi
  rw [h.laid.bitSize_composite hf] at hend
  have hbit : i - root.location.position < totalBits root.layout.components := by omega
  obtain ⟨j, layout, hj, hlow, hhigh⟩ := Layout.exists_getElem?_of_lt_totalBits hbit
  refine ⟨j, layout, hj, ?_⟩
  rw [Covers, (h.component hj).2]
  change _ ∧ _ < _ + layout.bitSize
  omega

/-- Every bit that a placed view covers is covered by one of its fields. -/
theorem Placed.exists_fieldOf (h : root.Placed length) {i : Nat} (hi : root.Covers i) :
    ∃ view, root.FieldOf view ∧ view.Covers i := by
  obtain ⟨layout, location⟩ := root
  induction layout using Layout.induction_components generalizing location with
  | atom handle field => exact ⟨_, fieldOf_atom_iff.mpr rfl, hi⟩
  | composite layout hl ih =>
    obtain ⟨j, component, hj, hcovers⟩ := h.exists_component hl hi
    obtain ⟨view, hfield, hview⟩ :=
      ih component (List.mem_of_getElem? hj) _ (h.component hj).1 hcovers
    exact ⟨view, (fieldOf_composite_iff h.laid hl).mpr ⟨j, component, hj, hfield⟩, hview⟩

end View

end BinaryLayout
