import BinaryLayout.Proofs.Catalog.Issued
import BinaryLayout.Proofs.Layout.Partition

/-!
# Sizes beyond the limit

Sums of sizes are checked, the sizes of single fields are not: they stop at the limit. A composite
therefore keeps the exact number of its bits precisely if the bits of every leaf can be counted
(`Laid.bitSize_eq_exact_iff`), and if they can, parts whose bits together cannot be counted are
refused (`Parts.exists_error_of_limit_lt`).

A field with too many bytes gets past the checks. Its size is taken for the limit itself, and a
composite of it alone adds nothing to that. The constructors accept such a field, and a catalog does
if it is given the field as a finished layout (`make_overlong`). `Layout.Made` are the layouts that
come about in these ways, and `Made.sizes_exact_iff` says which of them are what they should be.
-/

namespace BinaryLayout

/-- The size of a field is never overstated. -/
private theorem Field.bitSize_le_exact (field : Field) : field.bitSize ≤ field.exactBitSize := by
  cases field with
  | bits width offset => exact Nat.le_refl _
  | integer signedness size order | raw size =>
    rw [exactBitSize, Nat.mul_comm]
    exact Nat.min_le_left _ _

namespace Layout

variable {property : Field → Prop} {layout : Layout} {layouts : List Layout} {path : List Nat}
  {field : Field} {offset : Nat}

/-! ### Laid layouts -/

private theorem totalBits_le_exact (h : ∀ layout ∈ layouts, layout.bitSize ≤ layout.exactBitSize) :
    totalBits layouts ≤ exactBitSizes layouts := by
  induction layouts with
  | nil => exact Nat.le_refl _
  | cons layout layouts ih =>
    obtain ⟨hfirst, hrest⟩ := List.forall_mem_cons.mp h
    exact Nat.add_le_add hfirst (ih hrest)

/-- Layouts whose sizes are not overstated have their exact size together exactly if each of them
has it. -/
private theorem totalBits_eq_exact_iff
    (h : ∀ layout ∈ layouts, layout.bitSize ≤ layout.exactBitSize) :
    totalBits layouts = exactBitSizes layouts ↔
      ∀ layout ∈ layouts, layout.bitSize = layout.exactBitSize := by
  induction layouts with
  | nil => simp [exactBitSizes]
  | cons layout layouts ih =>
    obtain ⟨hfirst, hrest⟩ := List.forall_mem_cons.mp h
    have hle := totalBits_le_exact hrest
    rw [totalBits_cons, exactBitSizes, List.forall_mem_cons, ← ih hrest]
    omega

private theorem Laid.bitSize_le_exact (h : Laid property layout) :
    layout.bitSize ≤ layout.exactBitSize := by
  induction layout using induction_components with
  | atom handle field => exact field.bitSize_le_exact
  | composite layout hf ih =>
    rw [h.bitSize_composite hf, exactBitSize_composite hf]
    exact totalBits_le_exact fun member hmem => ih member hmem (h.components member hmem)

/-- A laid layout has its exact size exactly if all of its leaves have theirs. -/
theorem Laid.bitSize_eq_iff (h : Laid property layout) :
    layout.bitSize = layout.exactBitSize ↔
      ∀ path field offset, Leaf layout path field offset → field.bitSize = field.exactBitSize := by
  refine h.iff_forall_leaf (motive := fun layout => layout.bitSize = layout.exactBitSize)
    (fun handle field => Iff.rfl) fun layout h hf => ?_
  rw [h.bitSize_composite hf, exactBitSize_composite hf]
  exact totalBits_eq_exact_iff fun member hmem => (h.components member hmem).bitSize_le_exact

/-- A laid composite has its exact size exactly if the bits of all its leaves can be counted. -/
theorem Laid.bitSize_eq_exact_iff (h : Laid property layout) (hc : layout.isAtomic = false) :
    layout.bitSize = layout.exactBitSize ↔
      ∀ path field offset, Leaf layout path field offset → field.Countable := by
  rw [h.bitSize_eq_iff]
  constructor
  · -- a leaf is within the limit together with the composite
    intro hexact path field offset hleaf
    rw [Field.Countable, ← hexact _ _ _ hleaf]
    have hinside := h.leaf_end_le hleaf
    have hle := h.bitSize_le_of_composite hc
    omega
  · exact fun hcount path field offset hleaf => (hcount _ _ _ hleaf).bitSize_eq

/-- A leaf of a layout laid from fields with a property has the property. -/
private theorem Laid.property_leaf (h : Laid property layout)
    (hleaf : Leaf layout path field offset) : property field := by
  induction hleaf with
  | atom => exact h.property_atom
  | member hm _ ih => exact ih (h.member hm).1

namespace Parts

variable {parts : Parts} {handle : Handle}

/-- A composite consists of its parts laid back to back. -/
private theorem components_of_make (h : parts.make handle = .ok layout) :
    layout.isAtomic = false ∧ layout.components = parts.row := by
  cases parts with
  | array element count =>
    obtain ⟨-, -, rfl⟩ := arrayOf_eq_ok_iff.mp h
    exact ⟨rfl, rfl⟩
  | sequence members =>
    obtain ⟨-, -, rfl⟩ := groupOf_eq_ok_iff.mp h
    exact ⟨rfl, rfl⟩
  | record members =>
    obtain ⟨-, h⟩ := recordOf_eq_ok_iff.mp h
    obtain ⟨-, -, rfl⟩ := groupOf_eq_ok_iff.mp h
    exact ⟨rfl, rfl⟩

/-- Laid parts whose leaves can be counted, but not all of their bits together, are refused. -/
theorem exists_error_of_limit_lt (hp : ∀ given ∈ parts.given, Laid property given)
    (hleaves : ∀ member ∈ parts.row, ∀ path field offset,
      Leaf member path field offset → field.Countable)
    (hlimit : Extent.limit < exactBitSizes parts.row) :
    ∃ error, parts.make handle = .error error := by
  cases hmake : parts.make handle with
  | error error => exact ⟨error, rfl⟩
  | ok layout =>
    have hlaid := laid_of_make hp hmake
    obtain ⟨hc, hrow⟩ := components_of_make hmake
    -- otherwise the sizes would be exact and their sum within the limit
    have hexact : exactBitSizes parts.row = totalBits parts.row := by
      refine exactBitSizes_eq fun member hmem => ?_
      rw [(hp member (mem_given_of_mem_row hmem)).bitSize_eq_iff]
      exact fun path field offset hleaf => (hleaves member hmem path field offset hleaf).bitSize_eq
    have hle := hlaid.bitSize_le_of_composite hc
    rw [hlaid.bitSize_composite (by simpa [isAtomic] using hc), hrow, ← hexact] at hle
    exact absurd hle (Nat.not_le_of_lt hlimit)

end Parts

/-! ### Layouts from constructors and catalogs -/

/-- The layout comes from the constructors or from catalogs with honest histories, and all that it
comes from are fields, whatever numbers they have. -/
inductive Made : Layout → Prop
  | atom (handle : Handle) (field : Field) : Made (.atom handle field)
  | make {parts : Parts} {handle : Handle} {layout : Layout}
      (hp : ∀ given ∈ parts.given, Made given) (h : parts.make handle = .ok layout) : Made layout
  | pack {catalog : Catalog} {blueprint : Blueprint} {layout : Layout} (hc : catalog.Reachable)
      (hb : ∀ finished ∈ blueprint.finishedIn, Made finished)
      (h : (blueprint.pack.run.run catalog).1 = .ok layout) : Made layout

theorem Made.laid (h : Made layout) : Laid (fun _ => True) layout := by
  induction h with
  | atom handle field => exact .atom trivial
  | make _ h ih => exact Parts.laid_of_make ih h
  | @pack catalog blueprint layout hc _ h ih =>
    obtain ⟨outline, houtline, rfl⟩ := (hc.pack_agree blueprint).exists_ok h
    exact laid_anonymous_iff.mp (blueprint.outline_laid (fun _ _ => trivial) ih houtline)

/-- Whatever fields a composite from a constructor or a catalog comes from, it keeps the exact
numbers of its bits and bytes, and they are within the limit, exactly if the bits of every leaf can
be counted. -/
theorem Made.sizes_exact_iff (h : Made layout) (hc : layout.isAtomic = false) :
    (layout.bitSize = layout.exactBitSize ∧ layout.byteSize = (layout.exactBitSize + 7) / 8 ∧
        layout.exactBitSize ≤ Extent.limit) ↔
      ∀ path field offset, Leaf layout path field offset → field.Countable := by
  have hbytes : layout.byteSize = (layout.bitSize + 7) / 8 := by
    cases layout with
    | atom => cases hc
    | array | group => rfl
  have hle := h.laid.bitSize_le_of_composite hc
  rw [← h.laid.bitSize_eq_exact_iff hc, hbytes, and_iff_left_iff_imp]
  intro hexact
  rw [hexact] at hle ⊢
  exact ⟨rfl, hle⟩

/-- Three bytes with three bits behind them have 27 bits, which take four bytes. -/
theorem Made.sizes_exact_iff_tail :
    ∃ layout, (Parts.sequence [.atom ⟨0, 0⟩ (.raw 3), .atom ⟨0, 1⟩ (.bits 3 0)]).make ⟨0, 2⟩ =
      .ok layout ∧ layout.exactBitSize = 27 ∧ layout.bitSize = layout.exactBitSize ∧
        layout.byteSize = (layout.exactBitSize + 7) / 8 ∧ layout.exactBitSize ≤ Extent.limit := by
  refine ⟨_, rfl, rfl, ?_⟩
  have hgiven : ∀ member ∈ [Layout.atom ⟨0, 0⟩ (.raw 3), .atom ⟨0, 1⟩ (.bits 3 0)],
      Made member := by
    simp [Made.atom]
  have hbuilt : Built Field.Countable _ := @Built.sequence _ ⟨0, 2⟩
    [.atom ⟨0, 0⟩ (.raw 3), .atom ⟨0, 1⟩ (.bits 3 0)] _ (by
      simpa using ⟨.atom (by decide), .atom (by decide)⟩) rfl
  exact (Made.sizes_exact_iff (@Made.make (.sequence _) ⟨0, 2⟩ _ hgiven rfl) rfl).mpr
    fun path field offset hleaf => hbuilt.laid.property_leaf hleaf

/-- A run of one byte more than can be counted in bits. -/
def overlong : Layout := .atom ⟨0, 0⟩ (.raw (Extent.limit / 8 + 1))

/-- An array of one field that cannot be counted is accepted, by the constructor and by a catalog,
and the size that it keeps is not its size. -/
theorem make_overlong :
    (∃ layout, (Parts.array overlong 1).make ⟨0, 1⟩ = .ok layout ∧
      layout.bitSize = Extent.limit ∧ layout.exactBitSize = Extent.limit + 1) ∧
    ∃ layout, ((Blueprint.array 1 (.finished overlong)).pack.run.run (.empty 1 .big)).1 =
      .ok layout ∧ layout.bitSize = Extent.limit ∧ layout.exactBitSize = Extent.limit + 1 :=
  ⟨⟨.array ⟨0, 1⟩ overlong 1 Extent.limit, by decide, rfl, by decide⟩,
    ⟨.array ⟨1, 0⟩ overlong 1 Extent.limit, by decide +kernel, rfl, by decide⟩⟩

end Layout

end BinaryLayout
