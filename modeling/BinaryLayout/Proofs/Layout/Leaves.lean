import BinaryLayout.Proofs.Layout.Anonymous

/-!
# Fields in a row and leaves of layouts

`Field.placed` lays fields back to back, `Layout.leaves` lists the fields of a layout in order, each
with the bit at which the offsets in the nodes put it. A layout **consists** of fields laid back to
back when the two agree wherever the layout starts (`Layout.ConsistsOf`); a group consists of what
its members consist of, in their order (`consistsOf_group`).

Members that are aligned where they come to lie can be laid out in a group exactly when the group
starts on a byte boundary, unless all of them are bit packed (`exists_groupOf_iff`).
-/

namespace BinaryLayout

namespace Field

/-- The number of bits of fields laid back to back. -/
def totalBits (fields : List Field) : Nat := (fields.map bitSize).sum

/-- Fields laid back to back from bit `start` on, each with the bit at which it starts. -/
def placed : Nat → List Field → List (Field × Nat)
  | _, [] => []
  | start, field :: fields => (field, start) :: placed (start + field.bitSize) fields

@[simp]
theorem totalBits_nil : totalBits [] = 0 := rfl

@[simp]
theorem totalBits_cons (field : Field) (fields : List Field) :
    totalBits (field :: fields) = field.bitSize + totalBits fields := rfl

/-- Fields in two rows have as many bits as both together. -/
@[simp]
theorem totalBits_append (fields fields' : List Field) :
    totalBits (fields ++ fields') = totalBits fields + totalBits fields' := by
  simp [totalBits]

/-- The fields of a second row lie where those of the first end. -/
private theorem placed_append (start : Nat) (fields fields' : List Field) :
    placed start (fields ++ fields') =
      placed start fields ++ placed (start + totalBits fields) fields' := by
  induction fields generalizing start with
  | nil => rfl
  | cons field fields ih =>
    rw [List.cons_append, placed, ih, placed, totalBits_cons, Nat.add_assoc, List.cons_append]

end Field

namespace Layout

/-! ### Leaves in order -/

mutual

/-- The fields of a layout that starts at bit `start`, from left to right, each with the bit at
which it starts. -/
def leaves : Layout → Nat → List (Field × Nat)
  | .atom _ field, start => [(field, start)]
  | .array _ element count _, start =>
    (List.range count).flatMap fun i => element.leaves (start + i * element.bitSize)
  | .group _ _ members offsets _, start => leavesOf members offsets start

/-- The fields of members at their offsets from bit `start`. -/
def leavesOf : List Layout → List Nat → Nat → List (Field × Nat)
  | member :: members, offset :: offsets, start =>
    member.leaves (start + offset) ++ leavesOf members offsets start
  | _, _, _ => []

end

mutual

/-- Leaves have no regard to handles. -/
theorem leaves_anonymous : ∀ (layout : Layout) (start : Nat),
    layout.anonymous.leaves start = layout.leaves start
  | .atom _ _, _ => rfl
  | .array _ element _ _, start => by
    rw [anonymous, leaves, leaves, bitSize_anonymous]
    simp only [leaves_anonymous element]
  | .group _ _ members offsets _, start => by
    rw [anonymous, leaves, leaves, leavesOf_anonymousAll]

private theorem leavesOf_anonymousAll : ∀ (members : List Layout) (offsets : List Nat)
    (start : Nat),
    leavesOf (anonymousAll members) offsets start = leavesOf members offsets start
  | [], _, _ => by rw [anonymousAll]
  | _ :: _, [], _ => rfl
  | member :: members, offset :: offsets, start => by
    rw [anonymousAll, leavesOf, leavesOf, leaves_anonymous member,
      leavesOf_anonymousAll members offsets]

end

/-- The leaves of the layout are the fields, laid back to back. -/
structure ConsistsOf (layout : Layout) (fields : List Field) : Prop where
  leaves : ∀ start, layout.leaves start = Field.placed start fields
  bitSize : layout.bitSize = Field.totalBits fields
  packed : layout.isBitPacked = true ↔ ∀ field ∈ fields, field.isBitPacked = true

/-- A field by itself consists of that field. -/
theorem consistsOf_atom (handle : Handle) (field : Field) :
    (Layout.atom handle field).ConsistsOf [field] :=
  ⟨fun _ => rfl, rfl, by simp [isBitPacked]⟩

/-- Layouts one after the other consist of fields, one list of them for each layout. -/
inductive ConsistOf : List Layout → List Field → Prop
  | nil : ConsistOf [] []
  | cons {layout : Layout} {layouts : List Layout} {fields fields' : List Field}
      (h : layout.ConsistsOf fields) (hs : ConsistOf layouts fields') :
      ConsistOf (layout :: layouts) (fields ++ fields')

/-- Single fields, one after the other, consist of those fields. -/
theorem consistOf_atoms (fields : List Field) :
    ConsistOf (fields.map (.atom .blank)) fields := by
  induction fields with
  | nil => exact .nil
  | cons field fields ih => exact .cons (consistsOf_atom .blank field) ih

variable {layouts : List Layout} {fields : List Field}

/-- Layouts that consist of fields have as many bits as those. -/
theorem ConsistOf.totalBits (h : ConsistOf layouts fields) :
    totalBits layouts = Field.totalBits fields := by
  induction h with
  | nil => rfl
  | cons h hs ih => rw [totalBits_cons, h.bitSize, ih, Field.totalBits_append]

/-- Layouts are bit packed if all the fields are that they consist of. -/
theorem ConsistOf.packed (h : ConsistOf layouts fields) :
    (∀ layout ∈ layouts, layout.isBitPacked = true) ↔
      ∀ field ∈ fields, field.isBitPacked = true := by
  induction h with
  | nil => simp
  | cons h hs ih => simp only [List.forall_mem_cons, List.forall_mem_append, h.packed, ih]

/-- Members at their offsets have the leaves that they consist of, back to back from there on. -/
private theorem ConsistOf.leavesOf (h : ConsistOf layouts fields) (offset start : Nat) :
    leavesOf layouts (starts offset layouts) start = Field.placed (start + offset) fields := by
  induction h generalizing offset with
  | nil => rfl
  | cons h hs ih =>
    rw [starts, Layout.leavesOf, h.leaves, ih, h.bitSize, Field.placed_append, Nat.add_assoc]

/-- A group consists of what its members consist of. -/
theorem consistsOf_group (h : ConsistOf layouts fields) (handle : Handle) (labels : Labels) :
    (Layout.group handle labels layouts (starts 0 layouts) (Layout.totalBits layouts)).ConsistsOf
      fields where
  leaves start := h.leavesOf 0 start
  bitSize := h.totalBits
  packed := by rw [isBitPacked_composite rfl, components, h.packed]

/-! ### Groups of aligned members -/

/-- Only where in a byte members start matters to their alignment, and only if not all of them are
bit packed. -/
private theorem aligned_congr {start start' : Nat}
    (h : (∃ layout ∈ layouts, layout.isBitPacked = false) → start % 8 = start' % 8) :
    Aligned start layouts ↔ Aligned start' layouts := by
  induction layouts generalizing start start' with
  | nil => exact Iff.rfl
  | cons layout layouts ih =>
    have htail : (∃ other ∈ layouts, other.isBitPacked = false) →
        (start + layout.bitSize) % 8 = (start' + layout.bitSize) % 8 := by
      rintro ⟨other, hmem, hp⟩
      have := h ⟨other, List.mem_cons_of_mem _ hmem, hp⟩
      omega
    rw [Aligned, Aligned, ih htail]
    refine and_congr_left fun _ => imp_congr_right fun hp => ?_
    rw [h ⟨layout, by simp, hp⟩]

/-- Members that are aligned from bit `start` of the whole on can be laid out in a group exactly
when the group starts on a byte boundary, unless all of them are bit packed. -/
theorem exists_groupOf_iff {start : Nat} (ha : Aligned start layouts)
    (hl : start + totalBits layouts ≤ Extent.limit) (handle : Handle) (labels : Labels) :
    (∃ layout, groupOf handle labels layouts = .ok layout) ↔
      ((∃ layout ∈ layouts, layout.isBitPacked = false) → start % 8 = 0) := by
  have hgroup : (∃ layout, groupOf handle labels layouts = .ok layout) ↔ Aligned 0 layouts := by
    simp only [groupOf_eq_ok_iff]
    constructor
    · rintro ⟨_, h, -⟩
      exact h
    · intro h
      exact ⟨_, h, by omega, rfl⟩
  rw [hgroup]
  constructor
  · -- a member that is not bit packed starts on a byte boundary of the whole and of the group
    rintro h ⟨layout, hmem, hp⟩
    obtain ⟨i, hi⟩ := List.mem_iff_getElem?.mp hmem
    have := ha.getElem? hi hp
    have := h.getElem? hi hp
    omega
  · exact fun h => (aligned_congr h).mp ha

end Layout

end BinaryLayout
