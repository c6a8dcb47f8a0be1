import BinaryLayout.Proofs.Blueprint.Outline
import BinaryLayout.Proofs.Catalog.Growth

/-!
# Signatures as keys

A catalog keeps shared fields under their signatures and compares nothing else. This is sound
because a signature belongs to one field alone: the decimal numbers in it can be read back, no two
kinds of fields start alike, and the signatures of composites start with other letters than those of
fields (`Field.signature_inj`, `Layout.eq_atom_of_signature`).

So what an honest catalog keeps under the signature of a field is that field, and interning a field
gives that field, whatever else the catalog has been asked for (`Field.signature_determines`).
-/

namespace BinaryLayout

namespace Layout

/-- A layout with the signature of a field is that field. -/
private theorem field?_of_signature {layout : Layout} {field : Field}
    (h : layout.signature = field.signature) : layout.field? = some field := by
  obtain ⟨handle, rfl⟩ := eq_atom_of_signature h
  rfl

end Layout

namespace Catalog

variable {catalog : Catalog} {field : Field} {layout : Layout}

/-- What an honest catalog keeps under the signature of a field is that field. -/
theorem Honest.field?_of_find? (hc : catalog.Honest)
    (h : catalog.find? field.signature = some layout) : layout.field? = some field :=
  Layout.field?_of_signature (hc _ (mem_entries_of_find? h))

/-- Interning a field in an honest catalog gives that field. -/
private theorem Honest.exists_intern (hc : catalog.Honest) (handle : Handle) (field : Field) :
    ∃ shared later, (Build.intern (.atom handle field)).run.run catalog = (.ok shared, later) ∧
      shared.field? = some field := by
  obtain ⟨hsignature, -⟩ := hc.getOrAdd field.signature (.atom · field) fun _ => rfl
  exact ⟨_, _, rfl, Layout.field?_of_signature hsignature⟩

end Catalog

namespace Field

/-- A signature belongs to one field alone, whatever the numbers in the field are: to no other field
and to no composite. In a catalog with an honest history it therefore leads to that field, whether
it is looked up or the field is interned. -/
theorem signature_determines (field : Field) :
    (∀ other : Field, other.signature = field.signature ↔ other = field) ∧
    (∀ layout : Layout, layout.isAtomic = false → layout.signature ≠ field.signature) ∧
    ∀ catalog : Catalog, catalog.Reachable →
      (∀ layout, catalog.find? field.signature = some layout → layout.field? = some field) ∧
      ∀ handle, ∃ shared later,
        (Build.intern (.atom handle field)).run.run catalog = (.ok shared, later) ∧
          shared.field? = some field := by
  refine ⟨fun other => ⟨signature_inj, congrArg signature⟩, ?_, ?_⟩
  · intro layout hc hsignature
    rw [Layout.isAtomic, Layout.field?_of_signature hsignature] at hc
    cases hc
  · intro catalog hc
    exact ⟨fun layout => hc.honest.field?_of_find?,
      fun handle => hc.honest.exists_intern handle field⟩

/-- Of two numbers in a signature the one may end where the other goes on; what stands between them
tells the fields apart. -/
theorem signature_determines_tens :
    (bits 11 0).signature ≠ (bits 1 10).signature ∧
    (Layout.array ⟨1, 1⟩ (.atom ⟨1, 0⟩ (bits 1 10)) 1 1).signature ≠ (bits 1 10).signature ∧
    ∃ shared later, (Build.intern (.atom ⟨1, 0⟩ (bits 1 10))).run.run
        ((Catalog.empty 0 .big).after [.intern (.atom ⟨1, 2⟩ (bits 11 0))]) = (.ok shared, later) ∧
      shared.field? = some (bits 1 10) := by
  obtain ⟨hfields, hcomposites, hcatalogs⟩ := signature_determines (bits 1 10)
  have hreachable : ((Catalog.empty 0 .big).after [.intern (.atom ⟨1, 2⟩ (bits 11 0))]).Reachable :=
    ⟨0, .big, _, by simp [Request.Honest], rfl⟩
  refine ⟨fun h => ?_, hcomposites _ rfl, (hcatalogs _ hreachable).2 _⟩
  exact absurd ((hfields _).mp h) (by decide)

end Field

end BinaryLayout
