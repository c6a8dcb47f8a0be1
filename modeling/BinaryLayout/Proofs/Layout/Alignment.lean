import BinaryLayout.Layout.Leaf
import BinaryLayout.Proofs.Layout.Laid

/-!
# Alignment

Composites are built only if the leaves that consist of whole bytes start on byte boundaries. The
constructors do not visit them: of every member they look at its start and at whether it is bit
packed, and of an array at the second element alone. That is enough, for a laid layout is bit packed
exactly if it has no leaf of whole bytes (`Laid.isBitPacked_iff`), and otherwise all such leaves are
on boundaries as soon as the layout starts on one (`Laid.offBoundary_iff`).

`Parts` are what composites are built from. They are refused as misaligned only if a member laid
back to back with the others has a leaf of whole bytes off the boundaries, and the refusal names the
first such member (`Parts.make_checks_alignment`).
-/

namespace BinaryLayout

/-- The field consists of whole bytes. -/
def Field.WholeBytes : Field → Prop
  | .integer _ _ _ => True
  | .bits _ _ => False
  | .raw _ => True

private theorem Field.wholeBytes_iff {field : Field} :
    field.WholeBytes ↔ field.isBitPacked = false := by
  cases field <;> simp [WholeBytes, isBitPacked]

namespace Layout

variable {property : Field → Prop} {layout : Layout} {path : List Nat} {field : Field}
  {start offset : Nat}

/-! ### Leaves of whole bytes -/

theorem leaf_atom_iff {handle : Handle} {own : Field} :
    Leaf (.atom handle own) path field offset ↔ path = [] ∧ field = own ∧ offset = 0 := by
  constructor
  · rintro (_ | ⟨h, -⟩)
    · exact ⟨rfl, rfl, rfl⟩
    · cases h
  · rintro ⟨rfl, rfl, rfl⟩
    exact .atom

/-- The leaves of a laid composite are those of its components, each from where the components
before it end. -/
theorem Laid.leaf_composite_iff (h : Laid property layout) (hf : layout.field? = none) :
    Leaf layout path field offset ↔ ∃ i component rest inner,
      layout.components[i]? = some component ∧ Leaf component rest field inner ∧
        path = i :: rest ∧ offset = totalBits (layout.components.take i) + inner := by
  constructor
  · intro hleaf
    cases hleaf with
    | atom => cases hf
    | @member _ _ i _ inner rest _ hm hl =>
      rw [h.member?_eq] at hm
      obtain ⟨component, hi, hpair⟩ := Option.map_eq_some_iff.mp hm
      obtain ⟨rfl, rfl⟩ := Prod.mk.inj hpair
      exact ⟨i, component, rest, inner, hi, hl, rfl, rfl⟩
  · rintro ⟨i, component, rest, inner, hi, hl, rfl, rfl⟩
    exact .member (by rw [h.member?_eq, hi, Option.map_some]) hl

/-- What holds of laid composites exactly if it holds of their components, holds of a laid layout
exactly if it holds of its leaves. -/
theorem Laid.iff_forall_leaf {motive : Layout → Prop} {test : Field → Prop}
    (hatom : ∀ handle field, motive (.atom handle field) ↔ test field)
    (hcomposite : ∀ layout, Laid property layout → layout.field? = none →
      (motive layout ↔ ∀ component ∈ layout.components, motive component))
    (h : Laid property layout) :
    motive layout ↔ ∀ path field offset, Leaf layout path field offset → test field := by
  induction layout using induction_components with
  | atom handle own =>
    rw [hatom]
    constructor
    · intro ht path field offset hleaf
      obtain ⟨-, rfl, -⟩ := leaf_atom_iff.mp hleaf
      exact ht
    · exact fun h => h _ _ _ .atom
  | composite layout hf ih =>
    rw [hcomposite layout h hf]
    constructor
    · intro hm path field offset hleaf
      obtain ⟨i, component, rest, inner, hi, hinner, -, -⟩ := (h.leaf_composite_iff hf).mp hleaf
      have hmem := List.mem_of_getElem? hi
      exact (ih component hmem (h.components component hmem)).mp (hm component hmem) _ _ _ hinner
    · intro ht component hmem
      refine (ih component hmem (h.components component hmem)).mpr fun rest field inner hinner => ?_
      obtain ⟨i, hi⟩ := List.mem_iff_getElem?.mp hmem
      have hleaf := (h.leaf_composite_iff hf).mpr ⟨i, component, rest, inner, hi, hinner, rfl, rfl⟩
      exact ht _ _ _ hleaf

/-- A laid layout may start at any bit exactly if it has no leaf of whole bytes. -/
theorem Laid.isBitPacked_iff (h : Laid property layout) :
    layout.isBitPacked = true ↔
      ∀ path field offset, Leaf layout path field offset → ¬ field.WholeBytes := by
  refine h.iff_forall_leaf (fun handle field => ?_) fun layout _ hf => isBitPacked_composite hf
  rw [isBitPacked, Field.wholeBytes_iff, Bool.not_eq_false]

private theorem Laid.isBitPacked_eq_false_iff (h : Laid property layout) :
    layout.isBitPacked = false ↔
      ∃ path field offset, Leaf layout path field offset ∧ field.WholeBytes := by
  rw [← Bool.not_eq_true, h.isBitPacked_iff]
  simp

/-- An array without elements has no leaves, whatever its elements would be. -/
example : (Layout.array ⟨0, 0⟩ (.atom ⟨0, 1⟩ (.raw 3)) 0 0).isBitPacked = true := rfl

/-- The leaves of whole bytes of a laid layout start whole bytes from its start. -/
theorem Laid.offset_mod_eight (h : Laid property layout) (hleaf : Leaf layout path field offset)
    (hw : field.WholeBytes) : offset % 8 = 0 := by
  induction layout using induction_components generalizing path offset with
  | atom handle own =>
    obtain ⟨-, -, rfl⟩ := leaf_atom_iff.mp hleaf
    rfl
  | composite layout hf ih =>
    obtain ⟨i, component, rest, inner, hi, hinner, -, rfl⟩ := (h.leaf_composite_iff hf).mp hleaf
    have hmem := List.mem_of_getElem? hi
    have hlaid := h.components component hmem
    -- the component has such a leaf, so it is not bit packed and starts on a boundary
    have hpacked := hlaid.isBitPacked_eq_false_iff.mpr ⟨_, _, _, hinner, hw⟩
    have hstart := h.aligned.getElem? hi hpacked
    have hinside := ih component hmem hlaid hinner
    omega

/-- When the layout starts at bit `start`, one of its leaves of whole bytes does not start on a byte
boundary. -/
def OffBoundary (layout : Layout) (start : Nat) : Prop :=
  ∃ path field offset, Leaf layout path field offset ∧ field.WholeBytes ∧ (start + offset) % 8 ≠ 0

/-- Leaves of a laid layout are off the boundaries exactly if there are any of whole bytes and the
layout itself does not start on a boundary. -/
theorem Laid.offBoundary_iff (h : Laid property layout) :
    layout.OffBoundary start ↔ layout.isBitPacked = false ∧ start % 8 ≠ 0 := by
  rw [h.isBitPacked_eq_false_iff]
  constructor
  · rintro ⟨path, field, offset, hleaf, hw, hoff⟩
    have hoffset := h.offset_mod_eight hleaf hw
    exact ⟨⟨path, field, offset, hleaf, hw⟩, by omega⟩
  · rintro ⟨⟨path, field, offset, hleaf, hw⟩, hstart⟩
    have hoffset := h.offset_mod_eight hleaf hw
    exact ⟨path, field, offset, hleaf, hw, by omega⟩

/-! ### Refusals -/

/-- The layout at position `i` is the first of those laid back to back from bit `start` on that must
not start where it does. -/
structure FirstMisaligned (start : Nat) (layouts : List Layout) (i : Nat) (layout : Layout) :
    Prop where
  getElem? : layouts[i]? = some layout
  packed : layout.isBitPacked = false
  off : (start + totalBits (layouts.take i)) % 8 ≠ 0
  aligned : Aligned start (layouts.take i)

private theorem checkStart_eq_error {error : BuildError} {bit : Nat}
    (h : layout.checkStart bit = .error error) :
    layout.isBitPacked = false ∧ bit % 8 ≠ 0 ∧ error = .misaligned layout.signature (bit % 8) := by
  rw [checkStart] at h
  split at h
  · rename_i hoff
    exact ⟨hoff.2, hoff.1, (Except.error.inj h).symm⟩
  · cases h

variable {layouts : List Layout} {signature : String} {bit : Nat}

/-- Layouts are refused as misaligned because of the first that must not start where it does. -/
private theorem layOut_eq_misaligned {length : Nat}
    (h : layOut length layouts start = .error (.misaligned signature bit)) :
    ∃ i layout, FirstMisaligned start layouts i layout ∧ signature = layout.signature ∧
      bit = (start + totalBits (layouts.take i)) % 8 := by
  induction layouts generalizing start with
  | nil => cases h
  | cons head layouts ih =>
    rw [layOut] at h
    rcases Outcome.bind_eq_error_iff.mp h with hcheck | ⟨_, hcheck, h⟩
    · obtain ⟨hp, hoff, herror⟩ := checkStart_eq_error hcheck
      obtain ⟨rfl, rfl⟩ := BuildError.misaligned.inj herror
      exact ⟨0, head, ⟨rfl, hp, hoff, trivial⟩, rfl, rfl⟩
    · cases hnext : Extent.add? start head.bitSize with
      | none =>
        rw [hnext] at h
        cases h
      | some next =>
        obtain ⟨rfl, -⟩ := Extent.add?_eq_some_iff.mp hnext
        rw [hnext] at h
        rcases Outcome.bind_eq_error_iff.mp h with h | ⟨_, -, h⟩
        · obtain ⟨i, layout, hfirst, hsignature, hbit⟩ := ih h
          have htake : start + totalBits ((head :: layouts).take (i + 1)) =
              start + head.bitSize + totalBits (layouts.take i) := by
            rw [List.take_succ_cons, totalBits_cons, Nat.add_assoc]
          refine ⟨i + 1, layout, ⟨hfirst.getElem?, hfirst.packed, htake ▸ hfirst.off, ?_⟩,
            hsignature, htake ▸ hbit⟩
          exact ⟨checkStart_eq_ok_iff.mp hcheck, hfirst.aligned⟩
        · cases h

private theorem groupOf_eq_misaligned {handle : Handle} {labels : Labels}
    (h : groupOf handle labels layouts = .error (.misaligned signature bit)) :
    ∃ i layout, FirstMisaligned 0 layouts i layout ∧ signature = layout.signature ∧
      bit = totalBits (layouts.take i) % 8 := by
  rcases Outcome.bind_eq_error_iff.mp h with h | ⟨_, -, h⟩
  · simpa using layOut_eq_misaligned h
  · cases h

/-- If an array is refused as misaligned, then because of its second element. -/
private theorem arrayOf_eq_misaligned {handle : Handle} {element : Layout} {count : Nat}
    (h : arrayOf handle element count = .error (.misaligned signature bit)) :
    FirstMisaligned 0 (List.replicate count element) 1 element ∧ signature = element.signature ∧
      bit = totalBits ((List.replicate count element).take 1) % 8 := by
  rw [arrayOf_eq] at h
  rcases Outcome.bind_eq_error_iff.mp h with hcheck | ⟨_, -, h⟩
  · split at hcheck
    · rename_i hcount
      obtain ⟨hp, hoff, herror⟩ := checkStart_eq_error hcheck
      obtain ⟨rfl, rfl⟩ := BuildError.misaligned.inj herror
      have htake : (List.replicate count element).take 1 = [element] := by
        rw [List.take_replicate, Nat.min_eq_left (Nat.le_of_lt hcount), List.replicate_one]
      refine ⟨⟨List.getElem?_replicate_of_lt hcount, hp, ?_, ?_⟩, rfl, ?_⟩
      · simpa [htake] using hoff
      · rw [htake]
        exact ⟨fun _ => rfl, trivial⟩
      · simp [htake]
    · cases hcheck
  · cases hsize : Extent.mul? count element.bitSize <;> rw [hsize] at h <;> cases h

/-! ### Parts -/

/-- What a composite is built from. -/
inductive Parts where
  /-- So many elements of one layout. -/
  | array (element : Layout) (count : Nat)
  /-- Members without names. -/
  | sequence (members : List Layout)
  /-- Members with names. -/
  | record (members : List (String × Layout))

namespace Parts

/-- The composite of the parts. -/
def make (handle : Handle) : Parts → Except BuildError Layout
  | .array element count => arrayOf handle element count
  | .sequence members => sequenceOf handle members
  | .record members => recordOf handle members

/-- The layouts that are given. -/
def given : Parts → List Layout
  | .array element _ => [element]
  | .sequence members => members
  | .record members => members.map Prod.snd

/-- The layouts that come to lie back to back. -/
def row : Parts → List Layout
  | .array element count => List.replicate count element
  | .sequence members => members
  | .record members => members.map Prod.snd

variable {parts : Parts} {handle : Handle}

theorem mem_given_of_mem_row (h : layout ∈ parts.row) : layout ∈ parts.given := by
  cases parts with
  | array element count => exact List.mem_singleton.mpr (List.eq_of_mem_replicate h)
  | sequence | record => exact h

/-- What is made of built layouts is built. -/
private theorem built_of_make (hp : ∀ layout ∈ parts.given, Built property layout)
    (h : parts.make handle = .ok layout) : Built property layout := by
  cases parts with
  | array element count => exact .array (hp element (List.mem_singleton.mpr rfl)) h
  | sequence members => exact .sequence hp h
  | record members => exact .record (fun member hmem => hp _ (List.mem_map_of_mem hmem)) h

/-- What is made of laid layouts is laid. -/
theorem laid_of_make (hp : ∀ layout ∈ parts.given, Laid property layout)
    (h : parts.make handle = .ok layout) : Laid property layout := by
  cases parts with
  | array element count => exact (hp element (List.mem_singleton.mpr rfl)).of_arrayOf h
  | sequence members => exact .of_sequenceOf hp h
  | record members => exact .of_recordOf (fun member hmem => hp _ (List.mem_map_of_mem hmem)) h

/-- Parts are refused as misaligned because of the first layout that must not start where it
does. -/
private theorem make_eq_misaligned (h : parts.make handle = .error (.misaligned signature bit)) :
    ∃ i layout, FirstMisaligned 0 parts.row i layout ∧ signature = layout.signature ∧
      bit = totalBits (parts.row.take i) % 8 := by
  cases parts with
  | array element count => exact ⟨1, element, arrayOf_eq_misaligned h⟩
  | sequence members => exact groupOf_eq_misaligned h
  | record members =>
    rcases Outcome.bind_eq_error_iff.mp h with h | ⟨_, -, h⟩
    · rw [checkNames] at h
      split at h <;> cases h
    · exact groupOf_eq_misaligned h

/-- The constructors check the alignment of all leaves. In what they build, the leaves of whole
bytes start whole bytes from its start. If they refuse the parts as misaligned, then one of the
layouts laid back to back has a leaf of whole bytes off the boundaries; the refusal names the first
such layout and the bit of a byte at which it would start. A layout is bit packed exactly if it has
no leaf of whole bytes. -/
theorem make_checks_alignment (hp : ∀ layout ∈ parts.given, Built Field.Countable layout) :
    (∀ layout, parts.make handle = .ok layout → ∀ path field offset,
      Leaf layout path field offset → field.WholeBytes → offset % 8 = 0) ∧
    (∀ signature bit, parts.make handle = .error (.misaligned signature bit) →
      ∃ i layout, parts.row[i]? = some layout ∧
        layout.OffBoundary (exactBitSizes (parts.row.take i)) ∧
        (∀ j other, j < i → parts.row[j]? = some other →
          ¬ other.OffBoundary (exactBitSizes (parts.row.take j))) ∧
        signature = layout.signature ∧ bit = exactBitSizes (parts.row.take i) % 8) ∧
    ∀ layout, Built Field.Countable layout → (layout.isBitPacked = true ↔
      ¬ ∃ path field offset, Leaf layout path field offset ∧ field.WholeBytes) := by
  have hlaid : ∀ layout ∈ parts.row, Laid Field.Countable layout :=
    fun layout hmem => (hp layout (mem_given_of_mem_row hmem)).laid
  have hexact (i : Nat) : exactBitSizes (parts.row.take i) = totalBits (parts.row.take i) :=
    exactBitSizes_eq fun layout hmem =>
      (hlaid layout (List.mem_of_mem_take hmem)).bitSize_eq_of_countable
  refine ⟨?_, ?_, ?_⟩
  · intro layout h path field offset hleaf hw
    exact (built_of_make hp h).laid.offset_mod_eight hleaf hw
  · intro signature bit h
    obtain ⟨i, layout, hfirst, hsignature, hbit⟩ := make_eq_misaligned h
    refine ⟨i, layout, hfirst.getElem?, ?_, ?_, hsignature, by rw [hbit, hexact]⟩
    · rw [(hlaid layout (List.mem_of_getElem? hfirst.getElem?)).offBoundary_iff, hexact]
      exact ⟨hfirst.packed, by simpa using hfirst.off⟩
    · intro j other hj hother hoff
      rw [(hlaid other (List.mem_of_getElem? hother)).offBoundary_iff, hexact] at hoff
      -- the layouts before the first misaligned one are aligned
      have hbefore : (parts.row.take i)[j]? = some other := by
        rw [List.getElem?_take_of_lt hj, hother]
      have haligned := hfirst.aligned.getElem? hbefore hoff.1
      rw [List.take_take, Nat.min_eq_left (Nat.le_of_lt hj), Nat.zero_add] at haligned
      exact hoff.2 haligned
  · intro layout h
    rw [← h.laid.isBitPacked_eq_false_iff, Bool.not_eq_false]

/-- Three bits, and two bytes behind them. -/
def straddling : Parts :=
  .sequence [.atom ⟨0, 0⟩ (.bits 3 0),
    .array ⟨0, 1⟩ (.atom ⟨0, 2⟩ (.integer .unsigned 1 .big)) 2 16]

theorem make_checks_alignment_straddling :
    ∃ i layout, straddling.row[i]? = some layout ∧
      layout.OffBoundary (exactBitSizes (straddling.row.take i)) ∧
      "Array[2]" = layout.signature ∧ 3 = exactBitSizes (straddling.row.take i) % 8 := by
  have hbyte : Built Field.Countable (.atom ⟨0, 2⟩ (.integer .unsigned 1 .big)) :=
    .atom (by decide)
  have hgiven : ∀ layout ∈ straddling.given, Built Field.Countable layout := by
    intro layout hmem
    rcases List.mem_pair.mp hmem with rfl | rfl
    · exact .atom (by decide)
    · exact @Built.array _ ⟨0, 1⟩ _ _ 2 hbyte rfl
  have hmake : straddling.make ⟨0, 3⟩ = .error (.misaligned "Array[2]" 3) := by decide
  obtain ⟨i, layout, hi, hoff, -, hsignature, hbit⟩ :=
    (make_checks_alignment hgiven).2.1 _ _ hmake
  exact ⟨i, layout, hi, hoff, hsignature, hbit⟩

end Parts

end Layout

end BinaryLayout
