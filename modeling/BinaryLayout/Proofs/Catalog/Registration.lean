import BinaryLayout.Proofs.Blueprint.Plain
import BinaryLayout.Proofs.Blueprint.Records
import BinaryLayout.Proofs.Blueprint.Standing

/-!
# What a build leaves in a catalog

A build adds fields to the catalog while it goes on, and it may fail at many places. What it leaves
behind is nevertheless known exactly, if there are no finished layouts in the blueprint. A build
that succeeds adds the fields of its layout. One that fails adds the fields of the format strings up
to some place, all of which can be read where they stand: `placedTexts` lists the strings of a
blueprint with their places, as far as these are settled.

Both are read off the signatures that a blueprint asks for. They are those of the fields in its
outline (`asked_eq_fieldSignatures`), and those of a front part of its strings
(`asked_from_front`). `Catalog.Reachable.build_registers` says what this means for catalogs.
-/

namespace BinaryLayout

open Outcome (onOk map_onOk exists_ok_of_bind not_exists_ok_of_error)

namespace Layout

/-- The signatures of the fields in the tree of a layout, from left to right. The element of an
array is in the tree even if the array has no elements. -/
def fieldSignatures (layout : Layout) : List String := layout.fieldNodes.map signature

mutual

/-- The fields in the tree of an anonymous layout are the anonymous fields of the tree. -/
private theorem fieldNodes_anonymous : ∀ layout : Layout,
    layout.anonymous.fieldNodes = layout.fieldNodes.map anonymous
  | .atom _ _ => rfl
  | .array _ element _ _ => by rw [anonymous, fieldNodes, fieldNodes, fieldNodes_anonymous element]
  | .group _ _ members _ _ => by
    rw [anonymous, fieldNodes, fieldNodes, fieldNodesOf_anonymousAll members]

private theorem fieldNodesOf_anonymousAll : ∀ layouts : List Layout,
    fieldNodesOf (anonymousAll layouts) = (fieldNodesOf layouts).map anonymous
  | [] => rfl
  | layout :: layouts => by
    rw [anonymousAll, fieldNodesOf, fieldNodesOf, List.map_append, fieldNodes_anonymous layout,
      fieldNodesOf_anonymousAll layouts]

end

/-- Which fields are in a tree has no regard to handles. -/
theorem fieldSignatures_anonymous (layout : Layout) :
    layout.anonymous.fieldSignatures = layout.fieldSignatures := by
  rw [fieldSignatures, fieldNodes_anonymous, List.map_map, fieldSignatures]
  exact List.map_congr_left fun node _ => signature_anonymous node

end Layout

namespace Blueprint

/-! ### Format strings and their places -/

mutual

/-- The format strings of a blueprint, from left to right, each with the bit of the whole at which
it starts, when the blueprint starts at the bit `bit`. Those behind a member that cannot be built
have no place and are left out. -/
def placedTexts (dialect : Dialect) : Blueprint → Nat → List (String × Nat)
  | .format text, bit => [(text, bit)]
  | .finished _, _ => []
  | .array _ element, bit => element.placedTexts dialect bit
  | .sequence members, bit => placedTextsOf dialect members bit
  | .record members, bit => placedTextsOfNamed dialect members bit

/-- The format strings of members with their places, each member starting where the one before it
ends. -/
def placedTextsOf (dialect : Dialect) : List Blueprint → Nat → List (String × Nat)
  | [], _ => []
  | member :: members, bit =>
    member.placedTexts dialect bit ++ onOk (member.outline dialect bit) fun layout =>
      placedTextsOf dialect members (bit + layout.bitSize)

/-- The format strings of named members with their places. -/
def placedTextsOfNamed (dialect : Dialect) : List (String × Blueprint) → Nat → List (String × Nat)
  | [], _ => []
  | (_, member) :: members, bit =>
    member.placedTexts dialect bit ++ onOk (member.outline dialect bit) fun layout =>
      placedTextsOfNamed dialect members (bit + layout.bitSize)

end

/-! ### Front parts -/

/-- The list is a front part of the whole, and all of it under the condition. -/
def Front {α : Type} (condition : Prop) (front whole : List α) : Prop :=
  ∃ rest, whole = front ++ rest ∧ (condition → rest = [])

section

variable {α β : Type} {condition : Prop} {front front' whole whole' : List α}
  {x : Except BuildError β}

private theorem front_refl (condition : Prop) (whole : List α) : Front condition whole whole :=
  ⟨[], by simp, fun _ => rfl⟩

private theorem front_nil (h : ¬ condition) (whole : List α) : Front condition [] whole :=
  ⟨whole, rfl, fun hc => absurd hc h⟩

private theorem Front.isPrefix (h : Front condition front whole) : front <+: whole := by
  obtain ⟨rest, rfl, -⟩ := h
  exact List.prefix_append _ _

private theorem Front.eq (h : Front condition front whole) (hc : condition) : front = whole := by
  obtain ⟨rest, rfl, hrest⟩ := h
  rw [hrest hc, List.append_nil]

/-- A front part is one under any stronger condition. -/
theorem Front.imp {condition' : Prop} (h : Front condition front whole)
    (hc : condition' → condition) : Front condition' front whole := by
  obtain ⟨rest, hwhole, hrest⟩ := h
  exact ⟨rest, hwhole, fun hcondition => hrest (hc hcondition)⟩

/-- A front part is continued by one of what follows, if there is a result to go on with. -/
theorem Front.append {f : β → List α} (h : Front (∃ result, x = .ok result) front whole)
    (h' : ∀ result, x = .ok result → Front condition (f result) whole')
    (hc : condition → ∃ result, x = .ok result) :
    Front condition (front ++ onOk x f) (whole ++ whole') := by
  cases x with
  | error cause =>
    obtain ⟨rest, rfl, -⟩ := h
    refine ⟨rest ++ whole', by simp [onOk], fun hcondition => ?_⟩
    obtain ⟨result, hresult⟩ := hc hcondition
    cases hresult
  | ok result =>
    obtain ⟨rest, hrest, hnil⟩ := h' result rfl
    exact ⟨rest, by rw [h.eq ⟨result, rfl⟩, hrest, onOk, List.append_assoc], hnil⟩

end

variable {dialect : Dialect}

/-- If a member has an outline together with those behind it, then its end can be counted, and those
behind it have one from there on. -/
private theorem exists_outline_rest {β γ : Type} {member : Blueprint} {bit : Nat} {layout : Layout}
    {rest : Nat → Except BuildError β} {join : Layout → β → γ}
    (hlayout : member.outline dialect bit = .ok layout)
    (h : ∃ result, (do
      let layout ← member.outline dialect bit
      let next ← advance bit layout.bitSize
      let others ← rest next
      return join layout others) = .ok result) :
    advance bit layout.bitSize = .ok (bit + layout.bitSize) ∧
      ∃ others, rest (bit + layout.bitSize) = .ok others := by
  obtain ⟨result, h⟩ := h
  obtain ⟨own, hown, h⟩ := Outcome.bind_eq_ok_iff.mp h
  obtain rfl := Except.ok.inj (hown.symm.trans hlayout)
  obtain ⟨next, hnext, h⟩ := Outcome.bind_eq_ok_iff.mp h
  obtain ⟨others, hothers, -⟩ := Outcome.bind_eq_ok_iff.mp h
  obtain ⟨rfl, -⟩ := Format.advance_eq_ok_iff.mp hnext
  exact ⟨hnext, others, hothers⟩

/-- The names of members have no part in the places of their strings. -/
private theorem placedTextsOfNamed_eq (members : List (String × Blueprint)) (bit : Nat) :
    placedTextsOfNamed dialect members bit =
      placedTextsOf dialect (members.map Prod.snd) bit := by
  induction members generalizing bit with
  | nil => rfl
  | cons member members ih => simp only [placedTextsOfNamed, ih, List.map_cons, placedTextsOf]

/-- A record without an outline of its members has none itself. -/
private theorem exists_outlineMembers {members : List (String × Blueprint)} {bit : Nat}
    (h : ∃ layout, (record members).outline dialect bit = .ok layout) :
    ∃ layouts, outlineMembers dialect (members.map Prod.snd) bit = .ok layouts := by
  obtain ⟨layout, h⟩ := h
  obtain ⟨-, layouts, hlayouts, -⟩ := outline_record_eq_ok_iff.mp h
  exact ⟨layouts, hlayouts⟩

/-- The strings of members that have places are a front part of all of them, if those of each member
are. -/
private theorem placedTextsOf_front {members : List Blueprint}
    (h : ∀ member ∈ members, ∀ bit, Front (∃ layout, member.outline dialect bit = .ok layout)
      ((member.placedTexts dialect bit).map Prod.fst) member.texts) (bit : Nat) :
    Front (∃ layouts, outlineMembers dialect members bit = .ok layouts)
      ((placedTextsOf dialect members bit).map Prod.fst) (textsOf members) := by
  induction members generalizing bit with
  | nil => exact front_refl _ _
  | cons member members ih =>
    obtain ⟨hmember, hmembers⟩ := List.forall_mem_cons.mp h
    rw [placedTextsOf, List.map_append, map_onOk]
    refine (hmember bit).append (fun layout hlayout => ?_) exists_ok_of_bind
    exact (ih hmembers _).imp fun h => (exists_outline_rest hlayout h).2

/-- The strings that have places are a front part of all strings, and all of them if the blueprint
has an outline. -/
theorem placedTexts_front (blueprint : Blueprint) (bit : Nat) :
    Front (∃ layout, blueprint.outline dialect bit = .ok layout)
      ((blueprint.placedTexts dialect bit).map Prod.fst) blueprint.texts := by
  induction blueprint using induction_members generalizing bit with
  | format | finished => exact front_refl _ _
  | array count element ih => exact (ih bit).imp exists_ok_of_bind
  | sequence members ih => exact (placedTextsOf_front ih bit).imp exists_ok_of_bind
  | record members ih =>
    rw [placedTexts, placedTextsOfNamed_eq, texts, textsOfNamed_eq]
    exact (placedTextsOf_front ih bit).imp exists_outlineMembers

/-! ### Signatures of what is read -/

/-- The signatures are those of the fields of a front part of the strings, each of which can be read
at its place; of all of them under the condition. -/
def AskedFrom (dialect : Dialect) (condition : Prop) (placed : List (String × Nat))
    (signatures : List String) : Prop :=
  ∃ front, Front condition front placed ∧
    (∀ text ∈ front, ∃ parsed, Format.parse dialect text.1 text.2 = .ok parsed) ∧
      signatures = front.flatMap fun text => Format.asked dialect text.1 text.2

section

variable {condition : Prop} {placed placed' : List (String × Nat)} {signatures : List String}

private theorem askedFrom_nil : AskedFrom dialect condition [] [] :=
  ⟨[], front_refl _ _, by simp, rfl⟩

/-- Nothing needs to be asked for as long as the condition fails. -/
private theorem askedFrom_nothing (h : ¬ condition) : AskedFrom dialect condition placed [] :=
  ⟨[], front_nil h _, by simp, rfl⟩

theorem AskedFrom.imp {condition' : Prop} (h : AskedFrom dialect condition placed signatures)
    (hc : condition' → condition) : AskedFrom dialect condition' placed signatures := by
  obtain ⟨front, hfront, hread, hsignatures⟩ := h
  exact ⟨front, hfront.imp hc, hread, hsignatures⟩

/-- What is asked for first is followed by what is asked for behind it, if there is a result to go
on with. -/
theorem AskedFrom.append {β : Type} {x : Except BuildError β} {places : β → List (String × Nat)}
    {more : β → List String}
    (h : AskedFrom dialect (∃ result, x = .ok result) placed signatures)
    (h' : ∀ result, x = .ok result →
      AskedFrom dialect condition (places result) (more result))
    (hc : condition → ∃ result, x = .ok result) :
    AskedFrom dialect condition (placed ++ onOk x places) (signatures ++ onOk x more) := by
  obtain ⟨front, hfront, hread, rfl⟩ := h
  cases x with
  | error cause =>
    refine ⟨front, ?_, hread, by simp [onOk]⟩
    simpa [onOk] using hfront.imp hc
  | ok result =>
    obtain ⟨front', hfront', hread', hmore⟩ := h' result rfl
    obtain rfl := hfront.eq ⟨result, rfl⟩
    obtain ⟨rest, hrest, hnil⟩ := hfront'
    refine ⟨front ++ front', ⟨rest, by simp [onOk, hrest], hnil⟩, ?_, by simp [onOk, hmore]⟩
    intro text hmem
    exact (List.mem_append.mp hmem).elim (hread text) (hread' text)

/-- What stands behind a member is asked for only if its end can be counted. -/
private theorem AskedFrom.of_advance {condition' : Prop} {bit size : Nat} {more : Nat → List String}
    (h : AskedFrom dialect condition placed (more (bit + size)))
    (hc : condition' → advance bit size = .ok (bit + size) ∧ condition) :
    AskedFrom dialect condition' placed (onOk (advance bit size) more) := by
  cases hadvance : advance bit size with
  | error cause =>
    refine askedFrom_nothing fun hcondition => ?_
    have hok := (hc hcondition).1
    rw [hadvance] at hok
    cases hok
  | ok next =>
    obtain ⟨rfl, -⟩ := Format.advance_eq_ok_iff.mp hadvance
    exact h.imp fun hcondition => (hc hcondition).2

/-- A format string asks for its fields if it can be read, and for nothing otherwise. -/
private theorem askedFrom_format (text : String) (bit : Nat) :
    AskedFrom dialect (∃ layout, (format text).outline dialect bit = .ok layout)
      ((format text).placedTexts dialect bit) ((format text).asked dialect bit) := by
  rw [placedTexts, asked]
  cases hparse : Format.parse dialect text bit with
  | error cause =>
    rw [Format.asked, hparse]
    exact askedFrom_nothing (not_exists_ok_of_error hparse)
  | ok parsed => exact ⟨[(text, bit)], front_refl _ _, by simp [hparse], by simp⟩

end

/-- Members ask for the fields of a front part of their strings, if each of them does. -/
private theorem askedByMembers_from_front {members : List Blueprint}
    (h : ∀ member ∈ members, ∀ bit,
      AskedFrom dialect (∃ layout, member.outline dialect bit = .ok layout)
        (member.placedTexts dialect bit) (member.asked dialect bit)) (bit : Nat) :
    AskedFrom dialect (∃ layouts, outlineMembers dialect members bit = .ok layouts)
      (placedTextsOf dialect members bit) (askedByMembers dialect members bit) := by
  induction members generalizing bit with
  | nil => exact askedFrom_nil
  | cons member members ih =>
    obtain ⟨hmember, hmembers⟩ := List.forall_mem_cons.mp h
    refine (hmember bit).append (fun layout hlayout => ?_) exists_ok_of_bind
    exact (ih hmembers _).of_advance (exists_outline_rest hlayout)

/-- A blueprint without finished layouts asks for the fields of a front part of its strings, and for
those of all of them if it has an outline. -/
theorem asked_from_front (blueprint : Blueprint) (hf : blueprint.finishedIn = []) (bit : Nat) :
    AskedFrom dialect (∃ layout, blueprint.outline dialect bit = .ok layout)
      (blueprint.placedTexts dialect bit) (blueprint.asked dialect bit) := by
  induction blueprint using induction_members generalizing bit with
  | format text => exact askedFrom_format text bit
  | finished own => cases hf
  | array count element ih => exact (ih hf bit).imp exists_ok_of_bind
  | sequence members ih =>
    rw [finishedIn, finishedInAll_eq, List.flatMap_eq_nil_iff] at hf
    exact (askedByMembers_from_front (fun member hmem => ih member hmem (hf member hmem)) bit).imp
      exists_ok_of_bind
  | record members ih =>
    rw [finishedIn, finishedInNamed_eq, List.flatMap_eq_nil_iff] at hf
    rw [asked, placedTexts, placedTextsOfNamed_eq, askedByNamedMembers_eq]
    cases hnames : Layout.checkNames (members.map Prod.fst) with
    | error cause => exact askedFrom_nothing (not_exists_ok_of_error hnames)
    | ok _ =>
      exact (askedByMembers_from_front (fun member hmem => ih member hmem (hf member hmem)) bit).imp
        exists_outlineMembers

/-! ### Signatures of what is built -/

/-- The outline of fields has no other fields. -/
private theorem fieldSignatures_of_outlineFields {fields : List Field} {layout : Layout}
    (h : outlineFields fields = .ok layout) :
    layout.fieldSignatures = fields.map Field.signature := by
  have hnodes : layout.fieldNodes = fields.map (.atom .blank) := by
    have hblank : (fields.map (Layout.atom .blank)).map Layout.anonymous =
        fields.map (.atom .blank) := by
      rw [List.map_map]
      exact List.map_congr_left fun field _ => rfl
    rw [← Layout.fieldNodesOf_of_map_anonymous hblank]
    rw [outlineFields] at h
    generalize fields.map (Layout.atom .blank) = layouts at h
    split at h
    · obtain rfl := Except.ok.inj h
      simp [Layout.fieldNodesOf]
    · obtain ⟨-, -, rfl⟩ := Layout.groupOf_eq_ok_iff.mp h
      rfl
  rw [Layout.fieldSignatures, hnodes, List.map_map]
  rfl

/-- Members ask for the fields of their outlines, if each of them does. -/
private theorem askedByMembers_eq {members : List Blueprint}
    (h : ∀ member ∈ members, ∀ {bit : Nat} {layout : Layout},
      member.outline dialect bit = .ok layout →
        member.asked dialect bit = layout.fieldSignatures)
    {bit : Nat} {layouts : List Layout}
    (hm : outlineMembers dialect members bit = .ok layouts) :
    askedByMembers dialect members bit = (Layout.fieldNodesOf layouts).map Layout.signature := by
  induction members generalizing bit layouts with
  | nil =>
    obtain rfl := Except.ok.inj hm
    rfl
  | cons member members ih =>
    obtain ⟨layout, hlayout, hm⟩ := Outcome.bind_eq_ok_iff.mp hm
    obtain ⟨next, hnext, hm⟩ := Outcome.bind_eq_ok_iff.mp hm
    obtain ⟨others, hothers, hm⟩ := Outcome.bind_eq_ok_iff.mp hm
    obtain rfl := Except.ok.inj hm
    rw [askedByMembers, hlayout, onOk, hnext, onOk, h member List.mem_cons_self hlayout,
      ih (fun other hmem => h other (List.mem_cons_of_mem _ hmem)) hothers, Layout.fieldNodesOf,
      List.map_append]
    rfl

/-- A blueprint without finished layouts asks for the fields of its outline. -/
theorem asked_eq_fieldSignatures (blueprint : Blueprint) (hf : blueprint.finishedIn = [])
    {bit : Nat} {layout : Layout} (h : blueprint.outline dialect bit = .ok layout) :
    blueprint.asked dialect bit = layout.fieldSignatures := by
  induction blueprint using induction_members generalizing bit layout with
  | format text =>
    obtain ⟨parsed, hparse, h⟩ := Outcome.bind_eq_ok_iff.mp h
    rw [asked, Format.asked, hparse, fieldSignatures_of_outlineFields h]
    rfl
  | finished own => cases hf
  | array count element ih =>
    obtain ⟨outline, houtline, h⟩ := Outcome.bind_eq_ok_iff.mp h
    obtain ⟨-, -, rfl⟩ := Layout.arrayOf_eq_ok_iff.mp h
    have helement := ih hf houtline
    exact helement
  | sequence members ih =>
    rw [finishedIn, finishedInAll_eq, List.flatMap_eq_nil_iff] at hf
    obtain ⟨layouts, hlayouts, h⟩ := Outcome.bind_eq_ok_iff.mp h
    obtain ⟨-, -, rfl⟩ := Layout.groupOf_eq_ok_iff.mp h
    exact askedByMembers_eq (fun member hmem => ih member hmem (hf member hmem)) hlayouts
  | record members ih =>
    rw [finishedIn, finishedInNamed_eq, List.flatMap_eq_nil_iff] at hf
    obtain ⟨hnames, layouts, hlayouts, h⟩ := outline_record_eq_ok_iff.mp h
    obtain ⟨-, -, rfl⟩ := Layout.groupOf_eq_ok_iff.mp h
    rw [asked, Layout.checkNames_eq_ok_iff.mpr hnames, onOk, askedByNamedMembers_eq]
    exact askedByMembers_eq (fun member hmem => ih member hmem (hf member hmem)) hlayouts

end Blueprint

namespace Build

/-- A format string that cannot be read leaves the catalog as it is. -/
theorem run_parse_of_error {catalog : Catalog} {text : String} {bit : Nat} {cause : BuildError}
    (h : Format.parse catalog.dialect text bit = .error cause) :
    (parse text bit).run.run catalog = (.error cause, catalog) := by
  have hread : (parse text bit).run.run catalog = (do
      let parsed ← ofExcept (Format.parse catalog.dialect text bit)
      let layouts ← internFields parsed.fields
      return (layouts, parsed.bit) : Build (List Layout × Nat)).run.run catalog := rfl
  rw [hread, run_bind, h]
  rfl

/-- The blueprint of a format string that cannot be read leaves the catalog as it is. -/
private theorem run_format_of_error {catalog : Catalog} {text : String} {bit : Nat}
    {cause : BuildError} (h : Format.parse catalog.dialect text bit = .error cause) :
    (format text bit).run.run catalog = (.error cause, catalog) := by
  rw [format, run_bind, run_parse_of_error h]

end Build

namespace Catalog

variable {catalog last : Catalog} {signatures : List String}

/-- The later catalog has fields under the signatures besides those it had, and under no others,
and what was kept under a signature is kept still. -/
structure Gains (catalog : Catalog) (signatures : List String) (last : Catalog) : Prop where
  contains_iff : ∀ key, last.contains key = true ↔
    catalog.contains key = true ∨ key ∈ signatures
  find?_eq : ∀ key layout, catalog.find? key = some layout → last.find? key = some layout

private theorem Grows.gains (h : catalog.Grows signatures last) :
    catalog.Gains signatures last where
  contains_iff key := by
    rw [Catalog.contains_iff, Catalog.contains_iff]
    exact h.mem_keys
  find?_eq _ _ := h.find?

/-- A catalog with an honest history gains the fields of the layout that it gives for a blueprint
without finished layouts. If it gives none, it gains the fields of the format strings up to some
place, all of which can be read where they stand. In particular it stays as it is if a format string
cannot be read, by itself or as a blueprint, or if the names of a record repeat. -/
theorem Reachable.build_registers (hc : catalog.Reachable) {blueprint : Blueprint}
    (hb : blueprint.finishedIn = []) :
    (∀ layout last, blueprint.pack.run.run catalog = (.ok layout, last) →
        catalog.Gains layout.fieldSignatures last) ∧
      (∀ cause last, blueprint.pack.run.run catalog = (.error cause, last) →
        ∃ front, front <+: blueprint.placedTexts catalog.dialect 0 ∧
          front.map Prod.fst <+: blueprint.texts ∧
          (∀ text ∈ front, ∃ parsed, Format.parse catalog.dialect text.1 text.2 = .ok parsed) ∧
          catalog.Gains
            (front.flatMap fun text => Format.asked catalog.dialect text.1 text.2) last) ∧
      (∀ text cause, Format.parse catalog.dialect text 0 = .error cause →
        (Blueprint.format text).pack.run.run catalog = (.error cause, catalog)) ∧
      (∀ text bit cause last, (Build.parse text bit).run.run catalog = (.error cause, last) →
        last = catalog) ∧
      ∀ parts : List (String × Blueprint), ¬ (parts.map Prod.fst).Nodup →
        ∃ name, (Blueprint.record parts).pack.run.run catalog =
          (.error (.duplicateName name), catalog) := by
  refine ⟨?_, ?_, ?_, ?_, ?_⟩
  · intro layout last h
    have hgrows := (blueprint.build_asks catalog.dialect 0).grows hc.honest rfl h
    obtain ⟨outline, houtline, rfl⟩ :=
      (blueprint.build_refines catalog.dialect 0).exists_ok hc.honest rfl h
    rw [blueprint.asked_eq_fieldSignatures hb houtline, Layout.fieldSignatures_anonymous] at hgrows
    exact hgrows.gains
  · intro cause last h
    have hgrows := (blueprint.build_asks catalog.dialect 0).grows hc.honest rfl h
    have hfrom : Blueprint.AskedFrom catalog.dialect _ _ _ := blueprint.asked_from_front hb 0
    have htexts : Blueprint.Front _ ((blueprint.placedTexts catalog.dialect 0).map Prod.fst)
      blueprint.texts := blueprint.placedTexts_front 0
    obtain ⟨front, hfront, hread, hasked⟩ := hfrom
    rw [hasked] at hgrows
    exact ⟨front, hfront.isPrefix, (hfront.isPrefix.map _).trans htexts.isPrefix, hread,
      hgrows.gains⟩
  · exact fun text cause h => Build.run_format_of_error h
  · intro text bit cause last h
    cases hparse : Format.parse catalog.dialect text bit with
    | error _ =>
      rw [Build.run_parse_of_error hparse] at h
      exact (Prod.mk.inj h).2.symm
    | ok parsed =>
      obtain ⟨houtcome, -⟩ := Build.parse_refines text bit catalog hc.honest rfl
      rw [hparse, h] at houtcome
      cases houtcome
  · intro parts hparts
    obtain ⟨name, hname⟩ := Layout.exists_firstRepeat_iff.mpr hparts
    exact ⟨name, Blueprint.run_record_of_firstRepeat hname⟩

/-- A byte, no triples of bits, a string that cannot be read, and a byte. -/
def interrupted : Blueprint :=
  .sequence [.format "B", .array 0 (.format "R3"), .format "?", .format "B"]

/-- The third string cannot be read. What is in the catalog then belongs to strings in front of it.
-/
theorem build_registers_interrupted :
    ∃ front, front <+: [("B", 0), ("R3", 8), ("?", 8)] ∧
      front.map Prod.fst <+: ["B", "R3", "?", "B"] ∧
      (∀ text ∈ front, ∃ parsed, Format.parse .big text.1 text.2 = .ok parsed) ∧
      (empty 0 .big).Gains (front.flatMap fun text => Format.asked .big text.1 text.2)
        (interrupted.pack.run.run (empty 0 .big)).2 := by
  have hcatalog : (empty 0 .big).Reachable := ⟨0, .big, [], by simp, rfl⟩
  have hfinished : interrupted.finishedIn = [] := rfl
  have hfails : (interrupted.pack.run.run (empty 0 .big)).1 = .error (.unknownToken '?' 0) := by
    decide +kernel
  have hplaced : interrupted.placedTexts .big 0 = [("B", 0), ("R3", 8), ("?", 8)] := by
    decide +kernel
  obtain ⟨-, herror, -⟩ := hcatalog.build_registers hfinished
  rw [← hplaced]
  exact herror _ _ (Prod.ext hfails rfl)

end Catalog

end BinaryLayout
