import BinaryLayout.Layout.Basic

/-!
# Comparing shared layouts

A layout that stands in several places of another is one instance, so that the nodes of a layout
can be far more than the instances that it consists of: two members that are the same group, which
itself has two members that are the same group, and so on. `alike` finds out whether two layouts
have the same structure without a look into the parts in which both are one and the same instance.
Nothing is missed by that, since a layout has the structure of itself (`sameStructure_self`), and
`alike_eq` says that the answer is the one of `sameStructure`.
-/

namespace BinaryLayout.Layout

mutual

/-- A layout has the structure of itself. -/
theorem sameStructure_self : ∀ layout : Layout, layout.sameStructure layout = true
  | .atom _ _ => by simp [sameStructure]
  | .array _ element _ _ => by simp [sameStructure, sameStructure_self element]
  | .group _ _ members _ _ => by simp [sameStructure, sameStructures_self members]

/-- Layouts have the structures of themselves. -/
theorem sameStructures_self : ∀ layouts : List Layout, sameStructures layouts layouts = true
  | [] => by simp [sameStructures]
  | layout :: layouts => by
    simp [sameStructures, sameStructure_self layout, sameStructures_self layouts]

end

/-- The answer to whether two layouts have the same structure. -/
abbrev Comparison (a b : Layout) : Type := { same : Bool // same = a.sameStructure b }

/-- The given comparison of two layouts, which is not carried out if they are one instance in
memory. -/
@[inline] def Comparison.unlessShared {a b : Layout} (carryOut : Unit → Comparison a b) :
    Comparison a b :=
  ⟨withPtrEq a b (fun _ => (carryOut ()).val) fun shared => by
      rw [(carryOut ()).property, shared, sameStructure_self],
    (carryOut ()).property⟩

mutual

/-- The comparison of two layouts, node by node except where they share an instance. -/
def comparison : (a b : Layout) → Comparison a b
  | .atom _ field, .atom _ field' => ⟨field == field', by simp [sameStructure]⟩
  | .array _ element count bitSize, .array _ element' count' bitSize' =>
    let elements := Comparison.unlessShared fun _ => comparison element element'
    ⟨count == count' && bitSize == bitSize' && elements.val, by
      rw [elements.property, sameStructure]
      ac_rfl⟩
  | .group _ labels members offsets bitSize, .group _ labels' members' offsets' bitSize' =>
    ⟨labels == labels' && offsets == offsets' && bitSize == bitSize' &&
        (comparisons members members').val, by
      rw [(comparisons members members').property, sameStructure]
      ac_rfl⟩
  | .atom _ _, .array _ _ _ _ => ⟨false, by simp [sameStructure]⟩
  | .atom _ _, .group _ _ _ _ _ => ⟨false, by simp [sameStructure]⟩
  | .array _ _ _ _, .atom _ _ => ⟨false, by simp [sameStructure]⟩
  | .array _ _ _ _, .group _ _ _ _ _ => ⟨false, by simp [sameStructure]⟩
  | .group _ _ _ _ _, .atom _ _ => ⟨false, by simp [sameStructure]⟩
  | .group _ _ _ _ _, .array _ _ _ _ => ⟨false, by simp [sameStructure]⟩

/-- The comparison of two lists of layouts, member by member. -/
def comparisons : (as bs : List Layout) → { same : Bool // same = sameStructures as bs }
  | [], [] => ⟨true, by simp [sameStructures]⟩
  | a :: as, b :: bs =>
    let first := Comparison.unlessShared fun _ => comparison a b
    ⟨first.val && (comparisons as bs).val, by
      rw [first.property, (comparisons as bs).property, sameStructures]⟩
  | [], _ :: _ => ⟨false, by simp [sameStructures]⟩
  | _ :: _, [] => ⟨false, by simp [sameStructures]⟩

end

/-- The two have the same structure, whatever instances they consist of; parts that they share are
not looked into. -/
def alike (a b : Layout) : Bool := (Comparison.unlessShared fun _ => comparison a b).val

/-- Two layouts are alike exactly if they have the same structure. -/
theorem alike_eq (a b : Layout) : a.alike b = a.sameStructure b :=
  (Comparison.unlessShared fun _ => comparison a b).property

end BinaryLayout.Layout
