import BinaryLayout.Proofs.Catalog.Honest
import Mathlib.Data.Finset.Card

/-!
# How catalogs grow

A catalog changes in two ways. It issues a handle, or it is asked for the layout under a signature
and then adds one if it has none; that layout is made for the handle issued on this occasion.
`Catalog.Grows` says that a catalog becomes another one by such steps, and lists the signatures
asked for. Steps like these keep a catalog **sound**: it has one layout under each signature, no two
of them with one handle (`Grows.sound`). They take nothing away (`Grows.find?`), and there are
layouts under exactly the signatures asked for (`Grows.mem_keys`).

What a build does to a catalog is such a row of steps. `Build.Asks` lists the signatures, and its
rules go through a build step by step. A step that fails ends the list.
-/

namespace BinaryLayout

namespace Catalog

variable {catalog later last : Catalog} {signature key : String} {signatures more : List String}
  {make : Handle → Layout} {layout : Layout}

/-! ### Keys -/

/-- The signatures under which layouts are kept. -/
def keys (catalog : Catalog) : List String := catalog.entries.map Prod.fst

/-- A catalog contains the signatures that are among its keys. -/
theorem contains_iff : catalog.contains key = true ↔ key ∈ catalog.keys := by
  rw [contains, find?, List.lookup_isSome_iff, keys, List.mem_map]
  simp only [beq_iff_eq, eq_comm (a := key)]

/-- Nothing is found under a signature exactly if it is not among the keys. -/
theorem find?_eq_none_iff : catalog.find? key = none ↔ key ∉ catalog.keys := by
  rw [← contains_iff, contains, Option.not_isSome_iff_eq_none]

theorem mem_entries_of_find? (h : catalog.find? key = some layout) :
    (key, layout) ∈ catalog.entries := by
  obtain ⟨before, after, hentries, -⟩ := List.lookup_eq_some_iff.mp h
  simp [hentries]

/-! ### Looking up or adding -/

/-- A layout that is there already is given, and the catalog stays as it is. -/
theorem getOrAdd_of_some (h : catalog.find? signature = some layout) :
    catalog.getOrAdd signature make = (layout, catalog) := by
  rw [getOrAdd, h]

/-- Otherwise a layout is made for a new handle, and added behind all others. -/
theorem getOrAdd_of_none (h : catalog.find? signature = none) :
    catalog.getOrAdd signature make = (make catalog.issue.1,
      { catalog with
        entries := catalog.entries ++ [(signature, make catalog.issue.1)]
        issued := catalog.issued + 1 }) := by
  rw [getOrAdd, h]
  rfl

/-- Looking up or adding keeps all entries in their order. -/
theorem prefix_getOrAdd (catalog : Catalog) (signature : String) (make : Handle → Layout) :
    catalog.entries <+: (catalog.getOrAdd signature make).2.entries := by
  cases h : catalog.find? signature with
  | some layout => rw [getOrAdd_of_some h]
  | none =>
    rw [getOrAdd_of_none h]
    exact List.prefix_append _ _

/-- What is given under a signature is kept under it. -/
theorem find?_getOrAdd (catalog : Catalog) (signature : String) (make : Handle → Layout) :
    (catalog.getOrAdd signature make).2.find? signature =
      some (catalog.getOrAdd signature make).1 := by
  cases h : catalog.find? signature with
  | some layout =>
    rw [getOrAdd_of_some h]
    exact h
  | none =>
    rw [getOrAdd_of_none h]
    rw [find?] at h ⊢
    simp [List.lookup_append, h]

/-- Looking up or adding adds no signature but the one asked for. -/
theorem mem_keys_getOrAdd :
    key ∈ (catalog.getOrAdd signature make).2.keys ↔ key ∈ catalog.keys ∨ key = signature := by
  cases h : catalog.find? signature with
  | some layout =>
    -- the signature is among the keys
    have hmem : signature ∈ catalog.keys := by
      by_contra hmem
      rw [find?_eq_none_iff.mpr hmem] at h
      cases h
    rw [getOrAdd_of_some h, iff_self_or]
    rintro rfl
    exact hmem
  | none =>
    rw [getOrAdd_of_none h]
    simp [keys]

/-! ### Sound catalogs -/

/-- Under each signature there is one layout, which has that signature and a handle that no other
one has. -/
structure Sound (catalog : Catalog) : Prop where
  honest : catalog.Honest
  keys : catalog.keys.Nodup
  handles : (catalog.entries.map (·.2.handle)).Nodup
  issued : ∀ entry ∈ catalog.entries, entry.2.handle.serial < catalog.issued

/-- Layouts are made with the signature, for the handle they are given. -/
structure Makes (signature : String) (make : Handle → Layout) : Prop where
  signature_eq (handle : Handle) : (make handle).signature = signature
  handle_eq (handle : Handle) : (make handle).handle = handle

theorem sound_empty (owner : Nat) (dialect : Dialect) : (empty owner dialect).Sound where
  honest := honest_empty owner dialect
  keys := List.nodup_nil
  handles := List.nodup_nil
  issued _ hmem := absurd hmem List.not_mem_nil

/-- A catalog stays sound when a handle is issued. -/
theorem Sound.issue (hc : catalog.Sound) : catalog.issue.2.Sound where
  honest := hc.honest
  keys := hc.keys
  handles := hc.handles
  issued entry hmem := Nat.lt_succ_of_lt (hc.issued entry hmem)

/-- A catalog stays sound when a layout is looked up or added that is made with the signature and
for the handle. -/
theorem Sound.getOrAdd (hc : catalog.Sound) (hm : Makes signature make) :
    (catalog.getOrAdd signature make).2.Sound := by
  cases h : catalog.find? signature with
  | some layout =>
    rw [getOrAdd_of_some h]
    exact hc
  | none =>
    have honest := (hc.honest.getOrAdd signature make hm.signature_eq).2.1
    rw [getOrAdd_of_none h] at honest ⊢
    refine ⟨honest, ?_, ?_, ?_⟩
    · rw [Catalog.keys, List.map_append, List.map_singleton, ← List.concat_eq_append]
      exact hc.keys.concat (find?_eq_none_iff.mp h)
    · -- all handles that are in use were issued before
      rw [List.map_append, List.map_singleton, ← List.concat_eq_append]
      refine hc.handles.concat fun hmem => ?_
      obtain ⟨entry, hentry, hhandle⟩ := List.mem_map.mp hmem
      have hlt := hc.issued entry hentry
      rw [hhandle, hm.handle_eq] at hlt
      exact Nat.lt_irrefl _ hlt
    · intro entry hmem
      rcases List.mem_append.mp hmem with hmem | hmem
      · exact Nat.lt_succ_of_lt (hc.issued entry hmem)
      · obtain rfl := List.mem_singleton.mp hmem
        change (make catalog.issue.1).handle.serial < _
        rw [hm.handle_eq]
        exact Nat.lt_succ_self _

/-- One instance is kept under one signature. -/
theorem Sound.eq_of_handle_eq (hc : catalog.Sound) {signature' : String} {layout' : Layout}
    (h : catalog.find? signature = some layout) (h' : catalog.find? signature' = some layout')
    (hhandle : layout.handle = layout'.handle) : layout = layout' := by
  have hentries := List.inj_on_of_nodup_map hc.handles (mem_entries_of_find? h)
    (mem_entries_of_find? h') hhandle
  exact (Prod.mk.inj hentries).2

/-- The size of a sound catalog is the number of different signatures. -/
theorem Sound.size_eq (hc : catalog.Sound) : catalog.size = catalog.keys.toFinset.card := by
  rw [List.toFinset_card_of_nodup hc.keys, size, Catalog.keys, List.length_map]

/-! ### Growth -/

/-- The catalog becomes another one by issuing handles, and by looking up layouts or adding them
under the signatures in their order. -/
inductive Grows (catalog : Catalog) : List String → Catalog → Prop
  | refl : Grows catalog [] catalog
  | issue {signatures : List String} {later : Catalog} (h : Grows catalog signatures later) :
      Grows catalog signatures later.issue.2
  | getOrAdd {signatures : List String} {later : Catalog} {signature : String}
      {make : Handle → Layout} (h : Grows catalog signatures later) (hm : Makes signature make) :
      Grows catalog (signatures ++ [signature]) (later.getOrAdd signature make).2

/-- Steps and further steps make steps, which ask for both lists of signatures in turn. -/
theorem Grows.trans (h : catalog.Grows signatures later) (h' : later.Grows more last) :
    catalog.Grows (signatures ++ more) last := by
  induction h' with
  | refl => rwa [List.append_nil]
  | issue _ ih => exact ih.issue
  | getOrAdd _ hm ih =>
    rw [← List.append_assoc]
    exact ih.getOrAdd hm

theorem Grows.honest (h : catalog.Grows signatures later) (hc : catalog.Honest) :
    later.Honest := by
  induction h with
  | refl => exact hc
  | issue _ ih => exact ih
  | getOrAdd _ hm ih => exact (ih.getOrAdd _ _ hm.signature_eq).2.1

theorem Grows.dialect_eq (h : catalog.Grows signatures later) :
    later.dialect = catalog.dialect := by
  induction h with
  | refl => rfl
  | issue _ ih => exact ih
  | @getOrAdd _ later signature make _ _ ih =>
    rw [Catalog.getOrAdd]
    cases later.find? signature <;> exact ih

/-- A catalog that grows stays sound. -/
theorem Grows.sound (h : catalog.Grows signatures later) (hc : catalog.Sound) : later.Sound := by
  induction h with
  | refl => exact hc
  | issue _ ih => exact ih.issue
  | getOrAdd _ hm ih => exact ih.getOrAdd hm

/-- Nothing is taken away. -/
theorem Grows.prefix_entries (h : catalog.Grows signatures later) :
    catalog.entries <+: later.entries := by
  induction h with
  | refl => exact List.prefix_refl _
  | issue _ ih => exact ih
  | getOrAdd _ _ ih => exact ih.trans (prefix_getOrAdd _ _ _)

/-- What is kept under a signature stays. -/
theorem Grows.find? (h : catalog.Grows signatures later)
    (hfound : catalog.find? key = some layout) : later.find? key = some layout := by
  obtain ⟨added, hadded⟩ := h.prefix_entries
  rw [Catalog.find?] at hfound ⊢
  rw [← hadded, List.lookup_append, hfound, Option.some_or]

/-- The signatures that are new are those asked for. -/
theorem Grows.mem_keys (h : catalog.Grows signatures later) :
    key ∈ later.keys ↔ key ∈ catalog.keys ∨ key ∈ signatures := by
  induction h with
  | refl => simp
  | issue _ ih => exact ih
  | getOrAdd _ _ ih => rw [mem_keys_getOrAdd, ih, List.mem_append, List.mem_singleton, or_assoc]

end Catalog

/-! ### Builds -/

namespace Build

variable {α β γ : Type} {dialect : Dialect} {signatures : List String}

open Outcome (Agree onOk)

/-- In honest catalogs with the dialect, the build asks for the layouts under these signatures, and
apart from that at most issues handles. -/
def Asks (dialect : Dialect) (x : Build α) (signatures : List String) : Prop :=
  ∀ catalog : Catalog, catalog.Honest → catalog.dialect = dialect →
    catalog.Grows signatures (x.run.run catalog).2

/-- The catalog after a run that asks for some signatures has grown by them. -/
theorem Asks.grows {x : Build α} (hx : Asks dialect x signatures) {catalog last : Catalog}
    (hc : catalog.Honest) (hd : catalog.dialect = dialect) {outcome : Except BuildError α}
    (h : x.run.run catalog = (outcome, last)) : catalog.Grows signatures last := by
  have hgrows := hx catalog hc hd
  rwa [h] at hgrows

theorem asks_pure (a : α) : Asks dialect (pure a) [] := fun _ _ _ => .refl

theorem asks_issue : Asks dialect issue [] := fun _ _ _ => .issue .refl

theorem asks_getOrAdd {signature : String} {make : Handle → Layout}
    (hm : Catalog.Makes signature make) : Asks dialect (getOrAdd signature make) [signature] :=
  fun _ _ _ => .getOrAdd .refl hm

/-- A step that consults the catalog asks for what it does in every catalog of the dialect. -/
theorem asks_get {f : Catalog → Build α}
    (h : ∀ catalog : Catalog, catalog.dialect = dialect → Asks dialect (f catalog) signatures) :
    Asks dialect (get >>= f) signatures :=
  fun catalog hc hd => h catalog hd catalog hc hd

/-- A step that consults no catalog before another one. -/
theorem asks_ofExcept_bind {x : Except BuildError α} {f : α → Build β} {t : α → List String}
    (hf : ∀ a, x = .ok a → Asks dialect (f a) (t a)) :
    Asks dialect (ofExcept x >>= f) (onOk x t) := by
  intro catalog hc hd
  cases x with
  | ok a => exact hf a rfl catalog hc hd
  | error e => exact .refl

theorem asks_ofExcept (x : Except BuildError α) : Asks dialect (ofExcept x) [] :=
  fun _ _ _ => .refl

/-- One step after another, which asks for what the outcome of the first leads to. -/
theorem Asks.bind {R : α → γ → Prop} {x : Build α} {y : Except BuildError γ} {f : α → Build β}
    {t : γ → List String} (hx : Asks dialect x signatures) (hr : Refines dialect R x y)
    (hf : ∀ a b, R a b → Asks dialect (f a) (t b)) :
    Asks dialect (x >>= f) (signatures ++ onOk y t) := by
  intro catalog hc hd
  have hgrows := hx catalog hc hd
  obtain ⟨houtcome, hc', hd'⟩ := hr catalog hc hd
  rw [run_bind]
  generalize x.run.run catalog = result at *
  obtain ⟨outcome, catalog'⟩ := result
  cases houtcome with
  | ok h => exact hgrows.trans (hf _ _ h catalog' hc' hd')
  | error => exact hgrows.trans .refl

/-- A step that asks for nothing after another one. -/
theorem Asks.bind_nil {x : Build α} {f : α → Build β} (hx : Asks dialect x signatures)
    (hf : ∀ a, Asks dialect (f a) []) : Asks dialect (x >>= f) signatures := by
  intro catalog hc hd
  have hgrows := hx catalog hc hd
  rw [run_bind]
  generalize x.run.run catalog = result at *
  obtain ⟨_ | a, catalog'⟩ := result
  · exact hgrows
  · have hrest := hf a catalog' (hgrows.honest hc) (hgrows.dialect_eq.trans hd)
    simpa using hgrows.trans hrest

end Build

end BinaryLayout
