import BinaryLayout.Proofs.Layout.Laid

/-!
# Layouts without handles

Handles tell instances apart and are of no concern to the structure of a layout. `Layout.anonymous`
puts a blank handle into every node. Sizes, signatures and alignment stay, and the constructors make
the same of anonymous members (`groupOf_agree`, `arrayOf_agree`, `recordOf_agree`). So it is a
matter of structure alone whether a layout is laid back to back (`laid_anonymous_iff`).
-/

namespace BinaryLayout

open Outcome (Agree)

/-- The handle of nodes that are no instances. -/
def Handle.blank : Handle := ⟨0, 0⟩

namespace Layout

mutual

/-- The layout with blank handles. -/
def anonymous : Layout → Layout
  | .atom _ field => .atom .blank field
  | .array _ element count bitSize => .array .blank element.anonymous count bitSize
  | .group _ labels members offsets bitSize =>
    .group .blank labels (anonymousAll members) offsets bitSize

/-- The layouts with blank handles. -/
def anonymousAll : List Layout → List Layout
  | [] => []
  | layout :: layouts => layout.anonymous :: anonymousAll layouts

end

/-- Layouts in a row lose their handles one by one. -/
@[simp]
theorem anonymousAll_eq (layouts : List Layout) : anonymousAll layouts = layouts.map anonymous := by
  induction layouts with
  | nil => rfl
  | cons layout layouts ih => rw [anonymousAll, ih, List.map_cons]

/-- Another handle does not change the signature. -/
@[simp]
theorem signature_withHandle (handle : Handle) (layout : Layout) :
    (layout.withHandle handle).signature = layout.signature := by
  rcases layout with _ | _ | ⟨_, _ | _, _, _, _⟩ <;> rfl

@[simp]
theorem handle_withHandle (handle : Handle) (layout : Layout) :
    (layout.withHandle handle).handle = handle := by
  cases layout <;> rfl

mutual

/-- Layouts have the same structure exactly if they differ in handles alone. -/
theorem sameStructure_iff : ∀ {a b : Layout},
    a.sameStructure b = true ↔ a.anonymous = b.anonymous
  | .atom _ _, .atom _ _ => by simp [sameStructure, anonymous]
  | .array _ element _ _, .array _ element' _ _ => by
    simp only [sameStructure, anonymous, Bool.and_eq_true, beq_iff_eq, array.injEq,
      @sameStructure_iff element element', true_and, and_assoc]
  | .group _ _ members _ _, .group _ _ members' _ _ => by
    simp only [sameStructure, anonymous, Bool.and_eq_true, beq_iff_eq, group.injEq,
      @sameStructures_iff members members', true_and, and_assoc]
  | .atom _ _, .array _ _ _ _ | .atom _ _, .group _ _ _ _ _ | .array _ _ _ _, .atom _ _
  | .array _ _ _ _, .group _ _ _ _ _ | .group _ _ _ _ _, .atom _ _
  | .group _ _ _ _ _, .array _ _ _ _ => by simp [sameStructure, anonymous]

/-- Layouts in a row have the same structure exactly if they differ in handles alone. -/
theorem sameStructures_iff : ∀ {as bs : List Layout},
    sameStructures as bs = true ↔ anonymousAll as = anonymousAll bs
  | [], [] => by simp [sameStructures]
  | a :: as, b :: bs => by
    rw [sameStructures, anonymousAll, anonymousAll, Bool.and_eq_true, List.cons.injEq,
      sameStructure_iff, sameStructures_iff]
  | [], _ :: _ | _ :: _, [] => by simp [sameStructures, anonymousAll]

end

/-- Sizes have no regard to handles. -/
@[simp]
theorem bitSize_anonymous (layout : Layout) : layout.anonymous.bitSize = layout.bitSize := by
  cases layout <;> rfl

/-- Signatures have no regard to handles. -/
@[simp]
theorem signature_anonymous (layout : Layout) : layout.anonymous.signature = layout.signature := by
  cases layout with
  | atom | array => rfl
  | group handle labels members =>
    cases labels <;> simp [anonymous, signature]

mutual

/-- Handles do not decide whether a layout is bit packed. -/
@[simp]
theorem isBitPacked_anonymous : ∀ layout : Layout, layout.anonymous.isBitPacked = layout.isBitPacked
  | .atom _ _ => rfl
  | .array _ element _ _ => by
    rw [anonymous, isBitPacked, isBitPacked, isBitPacked_anonymous element]
  | .group _ _ members _ _ => by rw [anonymous, isBitPacked, isBitPacked, allBitPacked_anonymousAll]

private theorem allBitPacked_anonymousAll : ∀ layouts : List Layout,
    allBitPacked (anonymousAll layouts) = allBitPacked layouts
  | [] => rfl
  | layout :: layouts => by
    rw [anonymousAll, allBitPacked, allBitPacked, isBitPacked_anonymous, allBitPacked_anonymousAll]

end

/-- Handles do not decide where a layout may start; the cause of a refusal shows the signature
alone. -/
@[simp]
theorem checkStart_anonymous (layout : Layout) (bit : Nat) :
    layout.anonymous.checkStart bit = layout.checkStart bit := by
  rw [checkStart, checkStart, isBitPacked_anonymous, signature_anonymous]

/-- Layouts come to lie at the same offsets without their handles, or fail for the same cause. -/
@[simp]
theorem layOut_anonymous (length : Nat) (layouts : List Layout) (start : Nat) :
    layOut length (layouts.map anonymous) start = layOut length layouts start := by
  induction layouts generalizing start with
  | nil => rfl
  | cons layout layouts ih => simp only [List.map_cons, layOut, checkStart_anonymous,
      bitSize_anonymous, ih]

/-- The constructors have no regard to handles. -/
theorem groupOf_agree (handle : Handle) (labels : Labels) (members : List Layout) :
    Agree (·.anonymous = ·) (groupOf handle labels members)
      (groupOf .blank labels (members.map anonymous)) := by
  rw [groupOf, groupOf, List.length_map, layOut_anonymous]
  rcases layOut members.length members 0 with _ | ⟨offsets, bitSize⟩
  · exact .error
  · exact .ok (by rw [anonymous, anonymousAll_eq])

/-- An array of an anonymous element is the anonymous array, or both are refused for one cause. -/
theorem arrayOf_agree (handle : Handle) (element : Layout) (count : Nat) :
    Agree (·.anonymous = ·) (arrayOf handle element count)
      (arrayOf .blank element.anonymous count) := by
  rw [arrayOf, arrayOf, checkStart_anonymous, bitSize_anonymous, signature_anonymous]
  split
  · rcases element.checkStart element.bitSize with _ | _
    · exact .error
    · rcases Extent.mul? count element.bitSize with _ | _
      · exact .error
      · exact .ok rfl
  · rcases Extent.mul? count element.bitSize with _ | _
    · exact .error
    · exact .ok rfl

/-- A record of anonymous members is the anonymous record, or both are refused for one cause. -/
theorem recordOf_agree (handle : Handle) (members : List (String × Layout)) :
    Agree (·.anonymous = ·) (recordOf handle members)
      (recordOf .blank (members.map fun member => (member.1, member.2.anonymous))) := by
  have hgroup := groupOf_agree handle (.named (members.map Prod.fst)) (members.map Prod.snd)
  rw [recordOf, recordOf, List.map_map, List.map_map]
  rw [List.map_map] at hgroup
  change Agree _ _ (checkNames (members.map Prod.fst) >>= fun _ => _)
  rcases checkNames (members.map Prod.fst) with _ | _
  · exact .error
  · exact hgroup

/-! ### Laid layouts -/

variable {property : Field → Prop}

@[simp]
theorem totalBits_map_anonymous (layouts : List Layout) :
    totalBits (layouts.map anonymous) = totalBits layouts := by
  simp [totalBits, Function.comp_def]

@[simp]
theorem starts_map_anonymous (start : Nat) (layouts : List Layout) :
    starts start (layouts.map anonymous) = starts start layouts := by
  induction layouts generalizing start with
  | nil => rfl
  | cons layout layouts ih => rw [List.map_cons, starts, starts, bitSize_anonymous, ih]

/-- Members are aligned exactly if they are without their handles. -/
@[simp]
theorem aligned_map_anonymous {start : Nat} {layouts : List Layout} :
    Aligned start (layouts.map anonymous) ↔ Aligned start layouts := by
  induction layouts generalizing start with
  | nil => exact Iff.rfl
  | cons layout layouts ih =>
    rw [List.map_cons, Aligned, Aligned, isBitPacked_anonymous, bitSize_anonymous, ih]

/-- A layout that is laid back to back is so without its handles. -/
theorem Laid.anonymous {layout : Layout} (h : Laid property layout) :
    Laid property layout.anonymous := by
  induction h with
  | atom h => exact .atom h
  | @array handle element count he ha hl ih =>
    rw [Layout.anonymous, ← bitSize_anonymous element]
    refine .array ih ?_ (by rwa [bitSize_anonymous])
    rwa [← List.map_replicate, aligned_map_anonymous]
  | @group handle labels members hm hn ha hl ih =>
    rw [Layout.anonymous, anonymousAll_eq, ← starts_map_anonymous, ← totalBits_map_anonymous]
    refine .group ?_ (by rwa [List.length_map]) (by rwa [aligned_map_anonymous])
      (by rwa [totalBits_map_anonymous])
    simpa using ih

/-- Being laid back to back is a matter of structure. -/
theorem laid_anonymous_iff {layout : Layout} :
    Laid property layout.anonymous ↔ Laid property layout := by
  refine ⟨?_, Laid.anonymous⟩
  intro h
  -- on the derivation for the anonymous layout, whose shape is that of the layout
  generalize hother : layout.anonymous = other at h
  induction h generalizing layout with
  | atom h =>
    cases layout with
    | array | group => cases hother
    | atom handle field =>
      cases hother
      exact .atom h
  | array he ha hl ih =>
    cases layout with
    | atom | group => cases hother
    | array handle element count bitSize =>
      rw [Layout.anonymous] at hother
      cases hother
      rw [bitSize_anonymous] at hl ⊢
      exact .array (ih rfl) (by rwa [← List.map_replicate, aligned_map_anonymous] at ha) hl
  | group hm hn ha hl ih =>
    cases layout with
    | atom | array => cases hother
    | group handle labels members offsets bitSize =>
      rw [Layout.anonymous, anonymousAll_eq] at hother
      cases hother
      rw [List.length_map] at hn
      rw [aligned_map_anonymous] at ha
      rw [totalBits_map_anonymous] at hl ⊢
      rw [starts_map_anonymous]
      exact .group (fun member hmem => ih _ (List.mem_map_of_mem hmem) rfl) hn ha hl

end Layout

end BinaryLayout
