import BinaryLayout.Proofs.Layout.Alignment

/-!
# The leaves of a layout partition its bits

The leaves of a laid layout lie back to back: each of its bits is one of exactly one leaf, and no
leaf reaches beyond the end (`leaves_partition`). Elements of an array are found by multiplying and
members of a group in a table, and both are where the components before them end
(`Laid.leaf_composite_iff`). So it is enough that components do not overlap
(`eq_of_mem_components`) and leave no gap (`exists_getElem?_of_lt_totalBits`).

A layout without bits has no leaf with a bit, and its leaves share their place with what comes
next. They take nothing away from it.
-/

namespace BinaryLayout.Layout

variable {property : Field → Prop} {layout : Layout} {path path' : List Nat} {field field' : Field}
  {offset offset' bit : Nat}

/-! ### Components -/

/-- Of layouts laid back to back, two that have a bit in common are at the same position. -/
theorem eq_of_mem_components {layouts : List Layout} {i j : Nat} {component other : Layout}
    (hi : layouts[i]? = some component) (hj : layouts[j]? = some other)
    (hstart : totalBits (layouts.take i) ≤ bit)
    (hend : bit < totalBits (layouts.take i) + component.bitSize)
    (hstart' : totalBits (layouts.take j) ≤ bit)
    (hend' : bit < totalBits (layouts.take j) + other.bitSize) : i = j := by
  rcases Nat.lt_trichotomy i j with hij | hij | hij
  · have := totalBits_take_add_le_take hi hij
    omega
  · exact hij
  · have := totalBits_take_add_le_take hj hij
    omega

/-! ### Leaves -/

/-- The positions lead to a leaf, and the bit is one of the leaf. -/
def LeafHas (layout : Layout) (bit : Nat) (path : List Nat) : Prop :=
  ∃ field offset, Leaf layout path field offset ∧ offset ≤ bit ∧ bit < offset + field.bitSize

/-- A leaf ends within its layout. -/
theorem Laid.leaf_end_le (h : Laid property layout) (hleaf : Leaf layout path field offset) :
    offset + field.bitSize ≤ layout.bitSize := by
  induction hleaf with
  | atom => exact Nat.le_of_eq (Nat.zero_add _)
  | member hm _ ih =>
    obtain ⟨hmember, hle⟩ := h.member hm
    have hinside := ih hmember
    omega

/-- A bit of a leaf of a laid composite is one of the component in which the leaf lies, and there it
is one of the leaf. -/
private theorem Laid.leafHas_composite_iff (h : Laid property layout) (hf : layout.field? = none) :
    layout.LeafHas bit path ↔ ∃ i component rest inner, layout.components[i]? = some component ∧
      inner < component.bitSize ∧ bit = totalBits (layout.components.take i) + inner ∧
        component.LeafHas inner rest ∧ path = i :: rest := by
  constructor
  · rintro ⟨field, offset, hleaf, hstart, hend⟩
    obtain ⟨i, component, rest, inner, hi, hinner, rfl, rfl⟩ := (h.leaf_composite_iff hf).mp hleaf
    have hmem := List.mem_of_getElem? hi
    have hinside := (h.components component hmem).leaf_end_le hinner
    refine ⟨i, component, rest, bit - totalBits (layout.components.take i), hi, by omega, by omega,
      ⟨field, inner, hinner, by omega, by omega⟩, rfl⟩
  · rintro ⟨i, component, rest, inner, hi, -, rfl, ⟨field, offset, hleaf, hstart, hend⟩, rfl⟩
    refine ⟨field, totalBits (layout.components.take i) + offset, ?_, by omega, by omega⟩
    exact (h.leaf_composite_iff hf).mpr ⟨i, component, rest, offset, hi, hleaf, rfl, rfl⟩

/-- Every bit of a laid layout is one of a leaf. -/
theorem Laid.exists_leafHas (h : Laid property layout) (hb : bit < layout.bitSize) :
    ∃ path, layout.LeafHas bit path := by
  induction layout using induction_components generalizing bit with
  | atom handle own => exact ⟨[], own, 0, .atom, Nat.zero_le bit, by rwa [Nat.zero_add]⟩
  | composite layout hf ih =>
    rw [h.bitSize_composite hf] at hb
    obtain ⟨i, component, hi, hstart, hend⟩ := exists_getElem?_of_lt_totalBits hb
    have hmem := List.mem_of_getElem? hi
    obtain ⟨inner, rfl⟩ := Nat.exists_eq_add_of_le hstart
    have hinner : inner < component.bitSize := by omega
    obtain ⟨rest, hrest⟩ := ih component hmem (h.components component hmem) hinner
    exact ⟨i :: rest, (h.leafHas_composite_iff hf).mpr
      ⟨i, component, rest, inner, hi, hinner, rfl, hrest, rfl⟩⟩

/-- No bit of a laid layout is one of two leaves. -/
theorem Laid.leafHas_unique (h : Laid property layout) (hpath : layout.LeafHas bit path)
    (hpath' : layout.LeafHas bit path') : path = path' := by
  induction layout using induction_components generalizing bit path path' with
  | atom handle own =>
    obtain ⟨_, _, hleaf, -, -⟩ := hpath
    obtain ⟨_, _, hleaf', -, -⟩ := hpath'
    exact (leaf_atom_iff.mp hleaf).1.trans (leaf_atom_iff.mp hleaf').1.symm
  | composite layout hf ih =>
    obtain ⟨i, component, rest, inner, hi, hinner, rfl, hrest, rfl⟩ :=
      (h.leafHas_composite_iff hf).mp hpath
    obtain ⟨j, other, rest', inner', hj, hinner', hbit, hrest', rfl⟩ :=
      (h.leafHas_composite_iff hf).mp hpath'
    -- both leaves lie in the one component that has the bit
    obtain rfl : i = j := eq_of_mem_components hi hj (Nat.le_add_right _ inner) (by omega)
      (by omega) (by omega)
    obtain rfl : component = other := Option.some.inj (hi.symm.trans hj)
    obtain rfl : inner = inner' := Nat.add_left_cancel hbit
    have hmem := List.mem_of_getElem? hi
    rw [ih component hmem (h.components component hmem) hrest hrest']

/-! ### Built layouts -/

/-- The leaves of a built layout partition its bits: every bit of it lies in the leaf to which
exactly one list of positions leads, and no leaf reaches beyond its end. This is so whatever its
fields are. -/
theorem leaves_partition (h : layout.Built property) :
    (∀ bit, bit < layout.bitSize → ∃! path, ∃ field offset, Leaf layout path field offset ∧
      offset ≤ bit ∧ bit < offset + field.bitSize) ∧
    ∀ path field offset, Leaf layout path field offset →
      offset + field.bitSize ≤ layout.bitSize := by
  refine ⟨fun bit hb => ?_, fun path field offset => h.laid.leaf_end_le⟩
  obtain ⟨path, hpath⟩ := h.laid.exists_leafHas hb
  exact ⟨path, hpath, fun path' hpath' => h.laid.leafHas_unique hpath' hpath⟩

/-- Three bits, four members without bits where these end, and two times five bits. -/
def crowded : Layout :=
  .group ⟨0, 5⟩ .positional
    [.atom ⟨0, 0⟩ (.bits 3 0), .array ⟨0, 2⟩ (.group ⟨0, 1⟩ .positional [] [] 0) 4 0,
      .array ⟨0, 4⟩ (.atom ⟨0, 3⟩ (.bits 5 0)) 2 10]
    [0, 3, 3] 13

private theorem built_crowded : crowded.Built Field.Valid := by
  have hthree : (Field.bits 3 0).Valid := ⟨by decide, by decide, by decide⟩
  have hfive : (Field.bits 5 0).Valid := ⟨by decide, by decide, by decide⟩
  have hempty : Built Field.Valid (.group ⟨0, 1⟩ .positional [] [] 0) :=
    @Built.sequence _ ⟨0, 1⟩ [] _ (by simp) rfl
  have hmembers : ∀ member ∈ [Layout.atom ⟨0, 0⟩ (.bits 3 0),
      .array ⟨0, 2⟩ (.group ⟨0, 1⟩ .positional [] [] 0) 4 0,
      .array ⟨0, 4⟩ (.atom ⟨0, 3⟩ (.bits 5 0)) 2 10], Built Field.Valid member := by
    simp only [List.forall_mem_cons, List.not_mem_nil, false_implies, implies_true, and_true]
    exact ⟨.atom hthree, @Built.array _ ⟨0, 2⟩ _ _ 4 hempty rfl,
      @Built.array _ ⟨0, 4⟩ _ _ 2 (.atom hfive) rfl⟩
  exact @Built.sequence _ ⟨0, 5⟩ _ _ hmembers rfl

theorem leaves_partition_crowded :
    (∃! path, ∃ field offset, Leaf crowded path field offset ∧
      offset ≤ 3 ∧ 3 < offset + field.bitSize) ∧
    ∀ path field offset, Leaf crowded path field offset →
      offset + field.bitSize ≤ crowded.bitSize :=
  have hpartition := leaves_partition built_crowded
  ⟨hpartition.1 3 (by decide), hpartition.2⟩

end BinaryLayout.Layout
