import BinaryLayout.Proofs.Field.Codec

/-!
# Values of bit strings

Decoding takes as many bits from the front of a string as the layout has and looks at no others
(`decode_eq_some`), so that a layout has a value in every string of its size, `Layout.ofBits`. The
value of a composite is put together from those of its components, each in its segment of the string
(`ofBits_composite`, `getElem?_valuesOf`).

No bit is lost on the way: strings of the size of a layout in which it has the same value are the
same (`ofBits_inj`).
-/

namespace BinaryLayout.Layout

open Bytes (segmentBits)

/-! ### Decoding by components -/

/-- How the components of a composite are told apart. -/
def labels : Layout → Labels
  | .group _ labels _ _ _ => labels
  | _ => .positional

/-- Elements are decoded as so many members. -/
private theorem decodeTimes_eq (element : Layout) (count : Nat) (string : List Bool) :
    decodeTimes element.decode count string =
      decodeMembers (List.replicate count element) string := by
  induction count generalizing string with
  | zero => rfl
  | succ count ih =>
    rw [decodeTimes, List.replicate_succ, decodeMembers]
    cases element.decode string with
    | none => rfl
    | some result => simp only [ih]

/-- A composite is decoded component by component. -/
theorem decode_composite {layout : Layout} (h : layout.field? = none) (string : List Bool) :
    layout.decode string = (decodeMembers layout.components string).map fun (values, rest) =>
      (assemble layout.labels values, rest) := by
  cases layout with
  | atom handle field => simp [field?] at h
  | array handle element count bitSize => rw [decode, decodeTimes_eq]; rfl
  | group handle labels members offsets bitSize => rw [decode]; rfl

/-! ### Decoding is local -/

/-- Layouts one after the other take their bits from the front, if each of them does. -/
private theorem exists_decodeMembers {members : List Layout}
    (hm : ∀ member ∈ members, ∀ string, string.length = member.exactBitSize →
      ∃ value, ∀ rest, member.decode (string ++ rest) = some (value, rest))
    {string : List Bool} (hs : string.length = exactBitSizes members) :
    ∃ values, ∀ rest, decodeMembers members (string ++ rest) = some (values, rest) := by
  induction members generalizing string with
  | nil =>
    obtain rfl := List.eq_nil_of_length_eq_zero hs
    exact ⟨[], fun rest => rfl⟩
  | cons member members ih =>
    rw [exactBitSizes] at hs
    obtain ⟨value, hvalue⟩ := hm member (by simp) (string.take member.exactBitSize)
      (by rw [List.length_take]; omega)
    have hrest : (string.drop member.exactBitSize).length = exactBitSizes members := by
      rw [List.length_drop]
      omega
    obtain ⟨values, hvalues⟩ :=
      ih (fun other hmem => hm other (List.mem_cons_of_mem _ hmem)) hrest
    refine ⟨value :: values, fun rest => ?_⟩
    rw [decodeMembers, ← List.take_append_drop member.exactBitSize string, List.append_assoc,
      hvalue]
    simp only [hvalues, Option.map_some]

/-- A layout takes as many bits as it has fields for, whatever comes after them. -/
private theorem exists_decode (layout : Layout) {string : List Bool}
    (hs : string.length = layout.exactBitSize) :
    ∃ value, ∀ rest, layout.decode (string ++ rest) = some (value, rest) := by
  induction layout using induction_components generalizing string with
  | atom handle field =>
    refine ⟨field.ofBits string, fun rest => ?_⟩
    change string.length = field.exactBitSize at hs
    rw [decode, if_pos (by rw [List.length_append]; omega), ← hs, List.take_left, List.drop_left]
  | composite layout hl ih =>
    rw [exactBitSize_composite hl] at hs
    obtain ⟨values, hvalues⟩ := exists_decodeMembers (fun member hmem _ => ih member hmem) hs
    refine ⟨assemble layout.labels values, fun rest => ?_⟩
    rw [decode_composite hl, hvalues, Option.map_some]

/-- The value of a layout in a string of its size. -/
def ofBits (layout : Layout) (string : List Bool) : Value :=
  match layout.decode string with
  | some (value, _) => value
  | none => default

/-- Decoding takes the bits of the layout from the front of a string, and nothing else. -/
theorem decode_eq_some (layout : Layout) {string : List Bool}
    (h : layout.exactBitSize ≤ string.length) :
    layout.decode string = some (layout.ofBits (string.take layout.exactBitSize),
      string.drop layout.exactBitSize) := by
  have htake : (string.take layout.exactBitSize).length = layout.exactBitSize := by
    rw [List.length_take]
    omega
  -- one value, whatever comes after the bits of the layout: nothing, or the rest of the string
  obtain ⟨value, hvalue⟩ := exists_decode layout htake
  have hfront := hvalue []
  have hwhole := hvalue (string.drop layout.exactBitSize)
  rw [List.append_nil] at hfront
  rw [List.take_append_drop] at hwhole
  rw [hwhole, ofBits, hfront]

@[simp]
theorem ofBits_atom {handle : Handle} {field : Field} {string : List Bool}
    (h : string.length = field.exactBitSize) :
    (Layout.atom handle field).ofBits string = field.ofBits string := by
  rw [ofBits, decode, if_pos (Nat.le_of_eq h.symm), ← h, List.take_length]

/-! ### Values by components -/

/-- The values of layouts one after the other in a string. -/
def valuesOf : List Layout → List Bool → List Value
  | [], _ => []
  | layout :: layouts, string =>
    layout.ofBits (string.take layout.exactBitSize) ::
      valuesOf layouts (string.drop layout.exactBitSize)

@[simp]
theorem length_valuesOf (layouts : List Layout) (string : List Bool) :
    (valuesOf layouts string).length = layouts.length := by
  induction layouts generalizing string with
  | nil => rfl
  | cons layout layouts ih => simp [valuesOf, ih]

private theorem decodeMembers_eq_some {members : List Layout} {string : List Bool}
    (h : exactBitSizes members ≤ string.length) :
    decodeMembers members string =
      some (valuesOf members string, string.drop (exactBitSizes members)) := by
  induction members generalizing string with
  | nil => rfl
  | cons member members ih =>
    rw [exactBitSizes] at h ⊢
    have hrest : exactBitSizes members ≤ (string.drop member.exactBitSize).length := by
      rw [List.length_drop]
      omega
    rw [decodeMembers, decode_eq_some member (by omega)]
    simp only [ih hrest, Option.map_some, valuesOf, List.drop_drop]

/-- The value of a composite consists of those of its components. -/
theorem ofBits_composite {layout : Layout} (hl : layout.field? = none) {string : List Bool}
    (h : string.length = layout.exactBitSize) :
    layout.ofBits string = assemble layout.labels (valuesOf layout.components string) := by
  rw [exactBitSize_composite hl] at h
  rw [ofBits, decode_composite hl, decodeMembers_eq_some (Nat.le_of_eq h.symm), Option.map_some]

/-- The value of a component is the one that it has in its segment. -/
theorem getElem?_valuesOf (layouts : List Layout) (string : List Bool) (i : Nat) :
    (valuesOf layouts string)[i]? = layouts[i]?.map fun layout =>
      layout.ofBits (segmentBits string (exactBitSizes (layouts.take i)) layout.exactBitSize) := by
  induction layouts generalizing string i with
  | nil => rfl
  | cons layout layouts ih =>
    cases i with
    | zero => simp [valuesOf, segmentBits, exactBitSizes]
    | succ i =>
      simp only [valuesOf, List.getElem?_cons_succ, ih, segmentBits, List.drop_drop,
        List.take_succ_cons, exactBitSizes]

/-! ### Nothing is lost -/

/-- Different values of the members make different values of the whole. -/
private theorem assemble_inj {labels : Labels} {values values' : List Value}
    (hf : labels.Fit values.length) (hl : values.length = values'.length)
    (h : assemble labels values = assemble labels values') : values = values' := by
  cases labels with
  | positional => exact Value.list.inj h
  | named names =>
    have hzip := congrArg (List.map Prod.snd) (Value.record.inj h)
    rwa [List.map_snd_zip (by rw [hf.1]), List.map_snd_zip (by rw [hf.1, hl])] at hzip

private theorem valuesOf_inj {layouts : List Layout}
    (hm : ∀ layout ∈ layouts, ∀ a b : List Bool, a.length = layout.exactBitSize →
      b.length = layout.exactBitSize → layout.ofBits a = layout.ofBits b → a = b)
    {a b : List Bool} (ha : a.length = exactBitSizes layouts)
    (hb : b.length = exactBitSizes layouts) (h : valuesOf layouts a = valuesOf layouts b) :
    a = b := by
  induction layouts generalizing a b with
  | nil => rw [List.eq_nil_of_length_eq_zero ha, List.eq_nil_of_length_eq_zero hb]
  | cons layout layouts ih =>
    rw [exactBitSizes] at ha hb
    obtain ⟨hhead, htail⟩ := List.cons.inj h
    rw [← List.take_append_drop layout.exactBitSize a,
      ← List.take_append_drop layout.exactBitSize b]
    congr 1
    · exact hm layout (by simp) _ _ (by rw [List.length_take]; omega)
        (by rw [List.length_take]; omega) hhead
    · exact ih (fun other hmem => hm other (List.mem_cons_of_mem _ hmem))
        (by rw [List.length_drop]; omega) (by rw [List.length_drop]; omega) htail

variable {property : Field → Prop}

/-- A laid layout has names for just its components. -/
theorem Laid.labels_fit {layout : Layout} (h : Laid property layout) :
    layout.labels.Fit layout.components.length := by
  cases h with
  | atom h => trivial
  | array _ _ _ => trivial
  | group _ hn _ _ => exact hn

/-- Strings in which a laid layout has the same value are the same. -/
theorem ofBits_inj {layout : Layout} (h : Laid property layout) {a b : List Bool}
    (ha : a.length = layout.exactBitSize) (hb : b.length = layout.exactBitSize)
    (hv : layout.ofBits a = layout.ofBits b) : a = b := by
  induction layout using induction_components generalizing a b with
  | atom handle field =>
    rw [ofBits_atom ha, ofBits_atom hb] at hv
    exact Field.ofBits_inj ha hb hv
  | composite layout hl ih =>
    rw [ofBits_composite hl ha, ofBits_composite hl hb] at hv
    rw [exactBitSize_composite hl] at ha hb
    have hfit : layout.labels.Fit (valuesOf layout.components a).length := by
      rw [length_valuesOf]
      exact h.labels_fit
    have hvalues := assemble_inj hfit (by rw [length_valuesOf, length_valuesOf]) hv
    exact valuesOf_inj (fun component hmem _ _ => ih component hmem (h.components component hmem))
      ha hb hvalues

end BinaryLayout.Layout
