import BinaryLayout.Catalog.History
import BinaryLayout.Proofs.Field.Signature
import BinaryLayout.Proofs.Outcome
import Mathlib.Data.Prod.Basic

/-!
# Builds in honest catalogs

A catalog is **honest** when it keeps every layout under its own signature. What it keeps under the
signature of a field can then only be that field, so that an honest catalog has no say in what is
built: a build **refines** a computation without a catalog, which has the same outcome up to the
handles of instances, and it leaves an honest catalog with the same dialect.

`Build.Refines` goes through a build step by step (`Refines.bind`), and the steps that consult the
catalog are treated once each.
-/

namespace BinaryLayout

open Outcome (Agree)

/-- Every layout is kept under its own signature. -/
def Catalog.Honest (catalog : Catalog) : Prop :=
  ∀ entry ∈ catalog.entries, entry.2.signature = entry.1

theorem Catalog.honest_empty (owner : Nat) (dialect : Dialect) : (empty owner dialect).Honest :=
  fun _ hmem => absurd hmem List.not_mem_nil

namespace Build

variable {α β γ δ : Type}

/-- A second step is run in the catalog that the first one leaves, if that has a result. -/
theorem run_bind (x : Build α) (f : α → Build β) (catalog : Catalog) :
    (x >>= f).run.run catalog = match x.run.run catalog with
      | (.ok a, catalog) => (f a).run.run catalog
      | (.error e, catalog) => (.error e, catalog) := by
  rw [ExceptT.run_bind, StateT.run_bind]
  rcases x.run.run catalog with ⟨_ | _, _⟩ <;> rfl

section

variable {catalog last : Catalog}

/-- A step that gives a result leaves the catalog as it is. -/
theorem run_pure_eq_ok_iff {a b : α} :
    (pure a : Build α).run.run catalog = (.ok b, last) ↔ a = b ∧ catalog = last :=
  Prod.mk_inj.trans (and_congr_left' (Except.ok.injEq a b).to_iff)

/-- A step that consults no catalog leaves it as it is. -/
theorem run_ofExcept_eq_ok_iff {x : Except BuildError α} {a : α} :
    (ofExcept x).run.run catalog = (.ok a, last) ↔ x = .ok a ∧ catalog = last :=
  Prod.mk_inj

/-- A build in two steps succeeds exactly when both do, the second in the catalog after the
first. -/
theorem run_bind_eq_ok_iff {x : Build α} {f : α → Build β} {b : β} :
    (x >>= f).run.run catalog = (.ok b, last) ↔ ∃ a later,
      x.run.run catalog = (.ok a, later) ∧ (f a).run.run later = (.ok b, last) := by
  rw [run_bind]
  generalize x.run.run catalog = result
  constructor
  · intro h
    obtain ⟨_ | a, later⟩ := result
    · cases h
    · exact ⟨a, later, rfl, h⟩
  · rintro ⟨a, later, rfl, h⟩
    exact h

end

/-- In honest catalogs with the dialect, the build has the outcome of the computation up to the
relation, and leaves such a catalog. -/
def Refines (dialect : Dialect) (R : α → β → Prop) (x : Build α)
    (y : Except BuildError β) : Prop :=
  ∀ catalog : Catalog, catalog.Honest → catalog.dialect = dialect →
    Agree R (x.run.run catalog).1 y ∧ (x.run.run catalog).2.Honest ∧
      (x.run.run catalog).2.dialect = dialect

variable {dialect : Dialect} {R : α → β → Prop} {S : γ → δ → Prop}

/-- If the build succeeds, so does the computation. -/
theorem Refines.exists_ok {x : Build α} {y : Except BuildError β} (hr : Refines dialect R x y)
    {catalog last : Catalog} (hc : catalog.Honest) (hd : catalog.dialect = dialect) {a : α}
    (h : x.run.run catalog = (.ok a, last)) : ∃ b, y = .ok b ∧ R a b :=
  (hr catalog hc hd).1.exists_ok (congrArg Prod.fst h)

theorem refines_pure {a : α} {b : β} (h : R a b) :
    Refines dialect R (pure a) (.ok b) :=
  fun _ hc hd => ⟨.ok h, hc, hd⟩

/-- A step that consults no catalog refines what it agrees with. -/
theorem refines_ofExcept {x : Except BuildError α} {y : Except BuildError β}
    (h : Agree R x y) : Refines dialect R (ofExcept x) y :=
  fun _ hc hd => ⟨h, hc, hd⟩

/-- One step after another. -/
theorem Refines.bind {x : Build α} {y : Except BuildError β} {f : α → Build γ}
    {g : β → Except BuildError δ} (hx : Refines dialect R x y)
    (hf : ∀ a b, R a b → Refines dialect S (f a) (g b)) :
    Refines dialect S (x >>= f) (y >>= g) := by
  intro catalog hc hd
  obtain ⟨houtcome, hc', hd'⟩ := hx catalog hc hd
  rw [run_bind]
  generalize x.run.run catalog = result at *
  obtain ⟨outcome, catalog'⟩ := result
  cases houtcome with
  | ok h => exact hf _ _ h catalog' hc' hd'
  | error => exact ⟨.error, hc', hd'⟩

/-- A step that cannot fail before another one. -/
theorem Refines.bind_ok {x : Build α} {b : β} {f : α → Build γ} {y : Except BuildError δ}
    (hx : Refines dialect R x (.ok b))
    (hf : ∀ a, R a b → Refines dialect S (f a) y) :
    Refines dialect S (x >>= f) y := by
  intro catalog hc hd
  obtain ⟨houtcome, hc', hd'⟩ := hx catalog hc hd
  rw [run_bind]
  generalize x.run.run catalog = result at *
  obtain ⟨outcome, catalog'⟩ := result
  cases houtcome with
  | ok h => exact hf _ h catalog' hc' hd'

/-- The dialect is that of the catalog. -/
theorem refines_get {f : Catalog → Build α} {y : Except BuildError β}
    (h : ∀ catalog : Catalog, catalog.dialect = dialect → Refines dialect R (f catalog) y) :
    Refines dialect R (get >>= f) y :=
  fun catalog hc hd => h catalog hd catalog hc hd

theorem refines_issue : Refines dialect (fun _ _ => True) issue (.ok ()) :=
  fun _ hc hd => ⟨.ok trivial, hc, hd⟩

end Build

/-- What an honest catalog gives out under a signature has that signature, and it stays honest. -/
theorem Catalog.Honest.getOrAdd {catalog : Catalog} (hc : catalog.Honest) (signature : String)
    (make : Handle → Layout) (hm : ∀ handle, (make handle).signature = signature) :
    (catalog.getOrAdd signature make).1.signature = signature ∧
      (catalog.getOrAdd signature make).2.Honest ∧
        (catalog.getOrAdd signature make).2.dialect = catalog.dialect := by
  rw [Catalog.getOrAdd, find?]
  cases hfound : catalog.entries.lookup signature with
  | some found =>
    obtain ⟨before, after, hentries, -⟩ := List.lookup_eq_some_iff.mp hfound
    exact ⟨hc (signature, found) (by simp [hentries]), hc, rfl⟩
  | none =>
    -- the only new entry is the one made here
    refine ⟨hm _, fun entry hmem => ?_, rfl⟩
    rcases List.mem_append.mp hmem with hmem | hmem
    · exact hc entry hmem
    · obtain rfl := List.mem_singleton.mp hmem
      exact hm _

end BinaryLayout
