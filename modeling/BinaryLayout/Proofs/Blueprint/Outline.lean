import BinaryLayout.Proofs.Catalog.Honest
import BinaryLayout.Proofs.Layout.Anonymous

/-!
# Outlines of blueprints

The **outline** of a blueprint is the layout that it describes, worked out from a dialect without a
catalog; its nodes are no instances and all have one blank handle. What a blueprint gives in an
honest catalog is its outline with handles, and it fails as its outline does (`build_refines`).
Requests have outlines too, if they describe what they are to give (`Request.run_refines`). All
catalogs that requests lead to are honest (`Catalog.Reachable.honest`), so that questions about what
a blueprint gives are questions about its outline.
-/

namespace BinaryLayout

open Outcome (Agree)

namespace Blueprint

/-- The outline of the fields of a format string: a single one by itself, several as a sequence. -/
def outlineFields (fields : List Field) : Except BuildError Layout :=
  match fields.map (Layout.atom .blank) with
  | [layout] => .ok layout
  | layouts => Layout.sequenceOf .blank layouts

/-- The outline of a finished layout placed at `bit`. -/
def outlineFinished (layout : Layout) (bit : Nat) : Except BuildError Layout :=
  match layout.field? with
  | some (.bits width offset) =>
    if offset = bit % 8 then .ok layout.anonymous
    else do
      Format.checkSize Shape.bits.letter .bits width
      return .atom .blank (.bits width (bit % 8))
  | _ => .ok layout.anonymous

mutual

/-- The layout of a blueprint whose first bit is the bit `bit` of the whole, without handles. -/
def outline (dialect : Dialect) : Blueprint → Nat → Except BuildError Layout
  | .format text, bit => do
    let parsed ← Format.parse dialect text bit
    outlineFields parsed.fields
  | .finished layout, bit => outlineFinished layout bit
  | .array count element, bit => do
    let element ← element.outline dialect bit
    Layout.arrayOf .blank element count
  | .sequence members, bit => do
    let layouts ← outlineMembers dialect members bit
    Layout.sequenceOf .blank layouts
  | .record members, bit => do
    Layout.checkNames (members.map Prod.fst)
    let layouts ← outlineNamedMembers dialect members bit
    Layout.recordOf .blank layouts

/-- The outlines of members, each starting where the one before it ends. -/
def outlineMembers (dialect : Dialect) : List Blueprint → Nat → Except BuildError (List Layout)
  | [], _ => .ok []
  | member :: members, bit => do
    let layout ← member.outline dialect bit
    let next ← advance bit layout.bitSize
    let layouts ← outlineMembers dialect members next
    return layout :: layouts

/-- The outlines of named members, each starting where the one before it ends. -/
def outlineNamedMembers (dialect : Dialect) :
    List (String × Blueprint) → Nat → Except BuildError (List (String × Layout))
  | [], _ => .ok []
  | (name, member) :: members, bit => do
    let layout ← member.outline dialect bit
    let next ← advance bit layout.bitSize
    let layouts ← outlineNamedMembers dialect members next
    return (name, layout) :: layouts

end

variable {dialect : Dialect}

theorem length_outlineMembers {members : List Blueprint} {bit : Nat} {layouts : List Layout}
    (h : outlineMembers dialect members bit = .ok layouts) : layouts.length = members.length := by
  induction members generalizing bit layouts with
  | nil =>
    obtain rfl := Except.ok.inj h
    rfl
  | cons member members ih =>
    obtain ⟨layout, -, h⟩ := Outcome.bind_eq_ok_iff.mp h
    obtain ⟨next, -, h⟩ := Outcome.bind_eq_ok_iff.mp h
    obtain ⟨layouts, hlayouts, h⟩ := Outcome.bind_eq_ok_iff.mp h
    obtain rfl := Except.ok.inj h
    rw [List.length_cons, List.length_cons, ih hlayouts]

theorem length_of_buildMembers {members : List Blueprint} {bit : Nat} {layouts : List Layout}
    {catalog last : Catalog}
    (h : (buildMembers members bit).run.run catalog = (.ok layouts, last)) :
    layouts.length = members.length := by
  induction members generalizing bit layouts catalog last with
  | nil =>
    obtain ⟨rfl, -⟩ := Build.run_pure_eq_ok_iff.mp h
    rfl
  | cons member members ih =>
    obtain ⟨layout, later, -, h⟩ := Build.run_bind_eq_ok_iff.mp h
    obtain ⟨next, later, -, h⟩ := Build.run_bind_eq_ok_iff.mp h
    obtain ⟨layouts, later, hrest, h⟩ := Build.run_bind_eq_ok_iff.mp h
    obtain ⟨rfl, -⟩ := Build.run_pure_eq_ok_iff.mp h
    rw [List.length_cons, List.length_cons, ih hrest]

/-- Among the outlines of members there are only such as a member has somewhere. -/
theorem exists_of_mem_outlineMembers {members : List Blueprint} {bit : Nat} {layouts : List Layout}
    (h : outlineMembers dialect members bit = .ok layouts) {layout : Layout}
    (hmem : layout ∈ layouts) :
    ∃ member ∈ members, ∃ start, member.outline dialect start = .ok layout := by
  induction members generalizing bit layouts with
  | nil =>
    obtain rfl := Except.ok.inj h
    cases hmem
  | cons member members ih =>
    obtain ⟨first, hfirst, h⟩ := Outcome.bind_eq_ok_iff.mp h
    obtain ⟨next, -, h⟩ := Outcome.bind_eq_ok_iff.mp h
    obtain ⟨rest, hrest, h⟩ := Outcome.bind_eq_ok_iff.mp h
    obtain rfl := Except.ok.inj h
    rcases List.mem_cons.mp hmem with rfl | hmem
    · exact ⟨member, List.mem_cons_self, bit, hfirst⟩
    · obtain ⟨other, hother, houtline⟩ := ih hrest hmem
      exact ⟨other, List.mem_cons_of_mem _ hother, houtline⟩

/-- Named members are built as they would be without names. -/
theorem buildNamedMembers_eq (members : List (String × Blueprint)) (bit : Nat) :
    buildNamedMembers members bit = (do
      let layouts ← buildMembers (members.map Prod.snd) bit
      return (members.map Prod.fst).zip layouts) := by
  induction members generalizing bit with
  | nil => rfl
  | cons member members ih =>
    obtain ⟨name, member⟩ := member
    simp only [buildNamedMembers, List.map_cons, buildMembers, ih, bind_assoc, pure_bind,
      List.zip_cons_cons]

/-- The names of members have no part in their outlines. -/
theorem outlineNamedMembers_eq (members : List (String × Blueprint)) (bit : Nat) :
    outlineNamedMembers dialect members bit =
      (outlineMembers dialect (members.map Prod.snd) bit).map ((members.map Prod.fst).zip ·) := by
  induction members generalizing bit with
  | nil => rfl
  | cons member members ih =>
    rw [outlineNamedMembers, List.map_cons, List.map_cons, outlineMembers]
    cases member.2.outline dialect bit with
    | error e => rfl
    | ok layout =>
      cases hnext : advance bit layout.bitSize with
      | error e => simp [hnext, bind, Except.bind, Except.map]
      | ok next =>
        simp only [hnext, bind, Except.bind, ih]
        cases outlineMembers dialect (members.map Prod.snd) next <;> rfl

/-- A record is outlined as its members and put together under its names. -/
theorem outline_record_eq_ok_iff {members : List (String × Blueprint)} {bit : Nat}
    {layout : Layout} :
    (record members).outline dialect bit = .ok layout ↔ (members.map Prod.fst).Nodup ∧
      ∃ layouts, outlineMembers dialect (members.map Prod.snd) bit = .ok layouts ∧
        Layout.groupOf .blank (.named (members.map Prod.fst)) layouts = .ok layout := by
  rw [outline, Outcome.check_eq_ok_iff, Layout.checkNames_eq_ok_iff, Outcome.bind_eq_ok_iff]
  refine and_congr_right fun hn => ?_
  simp only [outlineNamedMembers_eq, Outcome.map_eq_ok_iff]
  -- there are as many outlines as names, so that none is lost
  have hlength {layouts : List Layout}
      (h : outlineMembers dialect (members.map Prod.snd) bit = .ok layouts) :
      layouts.length = (members.map Prod.fst).length := by
    rw [length_outlineMembers h, List.length_map, List.length_map]
  constructor
  · rintro ⟨_, ⟨layouts, hlayouts, rfl⟩, hrecord⟩
    rw [Layout.recordOf_zip (hlength hlayouts), Outcome.check_eq_ok_iff] at hrecord
    exact ⟨layouts, hlayouts, hrecord.2⟩
  · rintro ⟨layouts, hlayouts, hgroup⟩
    refine ⟨_, ⟨layouts, hlayouts, rfl⟩, ?_⟩
    rw [Layout.recordOf_zip (hlength hlayouts), Outcome.check_eq_ok_iff]
    exact ⟨Layout.checkNames_eq_ok_iff.mpr hn, hgroup⟩

end Blueprint

namespace Build

variable {dialect : Dialect}

/-! ### The steps of a build -/

/-- The shared instance of a field is that field. -/
theorem internField_refines (field : Field) :
    Refines dialect (·.anonymous = ·) (internField field) (.ok (.atom .blank field)) := by
  intro catalog hc hd
  obtain ⟨hsignature, hc', hd'⟩ := hc.getOrAdd field.signature
    (fun handle => .atom handle field) fun _ => rfl
  obtain ⟨handle, hatom⟩ := Layout.eq_atom_of_signature hsignature
  exact ⟨.ok (congrArg Layout.anonymous hatom), hc', hd'.trans hd⟩

private theorem internFields_refines (fields : List Field) :
    Refines dialect (·.map Layout.anonymous = ·) (internFields fields)
      (.ok (fields.map (.atom .blank))) := by
  induction fields with
  | nil => exact refines_pure rfl
  | cons field fields ih =>
    refine (internField_refines field).bind_ok fun layout hlayout => ?_
    refine ih.bind_ok fun layouts hlayouts => ?_
    exact refines_pure (by rw [List.map_cons, List.map_cons, hlayout, hlayouts])

theorem field_refines (shape : Shape) (size : Nat) (order : ByteOrder) (bit : Nat) :
    Refines dialect (·.anonymous = ·) (field shape size order bit) (do
      Format.checkSize shape.letter shape size
      return .atom .blank (shape.field size order bit)) :=
  (refines_ofExcept (.refl _)).bind fun _ _ _ => internField_refines _

private theorem place_refines (layout : Layout) (bit : Nat) :
    Refines dialect (·.anonymous = ·) (place layout bit)
      (Blueprint.outlineFinished layout bit) := by
  match layout with
  | .atom handle (.bits width offset) =>
    change Refines dialect _ (if offset = bit % 8 then _ else _) (if offset = bit % 8 then _ else _)
    split
    · exact refines_pure rfl
    · exact field_refines .bits width .little bit
  | .atom _ (.integer _ _ _) | .atom _ (.raw _) | .array _ _ _ _ | .group _ _ _ _ _ =>
    exact refines_pure rfl

theorem parse_refines (text : String) (bit : Nat) :
    Refines dialect (fun result parsed =>
        result.1.map Layout.anonymous = parsed.fields.map (Layout.atom .blank) ∧
          result.2 = parsed.bit)
      (parse text bit) (Format.parse dialect text bit) := by
  refine refines_get fun catalog hd => ?_
  have hread : Refines dialect (· = ·) (ofExcept (Format.parse dialect text bit))
      (Format.parse dialect text bit) := refines_ofExcept (.refl _)
  have hsteps := hread.bind
    (f := fun parsed => internFields parsed.fields >>= fun layouts => pure (layouts, parsed.bit))
    (g := pure)
    (S := fun result parsed =>
      result.1.map Layout.anonymous = parsed.fields.map (Layout.atom .blank) ∧
        result.2 = parsed.bit) (by
    rintro parsed _ rfl
    exact (internFields_refines parsed.fields).bind_ok fun layouts h => refines_pure ⟨h, rfl⟩)
  rw [bind_pure] at hsteps
  rw [hd]
  exact hsteps

private theorem share_refines {make : Handle → Except BuildError Layout}
    {outline : Except BuildError Layout}
    (h : ∀ handle, Agree (·.anonymous = ·) (make handle) outline) :
    Refines dialect (·.anonymous = ·) (share make) outline :=
  refines_issue.bind_ok fun handle _ => refines_ofExcept (h handle)

private theorem format_refines (text : String) (bit : Nat) :
    Refines dialect (·.anonymous = ·) (format text bit)
      (Format.parse dialect text bit >>= fun parsed => Blueprint.outlineFields parsed.fields) := by
  refine (parse_refines text bit).bind ?_
  rintro ⟨layouts, finish⟩ parsed ⟨hlayouts, -⟩
  rw [Blueprint.outlineFields, ← hlayouts]
  match layouts with
  | [layout] => exact refines_pure rfl
  | [] => exact share_refines fun handle => Layout.groupOf_agree handle .positional []
  | first :: second :: layouts =>
    exact share_refines fun handle =>
      Layout.groupOf_agree handle .positional (first :: second :: layouts)

end Build

namespace Blueprint

/-! ### Whole builds -/

/-- Members are built as they are outlined, if each of them is. -/
theorem buildMembers_refines {members : List Blueprint}
    (h : ∀ member ∈ members, ∀ bit, Build.Refines dialect (·.anonymous = ·) (member.build bit)
      (member.outline dialect bit)) (bit : Nat) :
    Build.Refines dialect (·.map Layout.anonymous = ·) (buildMembers members bit)
      (outlineMembers dialect members bit) := by
  induction members generalizing bit with
  | nil => exact Build.refines_pure rfl
  | cons member members ih =>
    obtain ⟨hmember, hmembers⟩ := List.forall_mem_cons.mp h
    refine (hmember bit).bind ?_
    rintro layout _ rfl
    rw [Layout.bitSize_anonymous]
    refine (Build.refines_ofExcept (.refl _)).bind ?_
    rintro next _ rfl
    refine (ih hmembers next).bind ?_
    rintro layouts _ rfl
    exact Build.refines_pure rfl

/-- Named members are built as they are outlined, if each of them is. -/
private theorem buildNamedMembers_refines {members : List (String × Blueprint)}
    (h : ∀ member ∈ members.map Prod.snd, ∀ bit, Build.Refines dialect (·.anonymous = ·)
      (member.build bit) (member.outline dialect bit)) (bit : Nat) :
    Build.Refines dialect (fun layouts outlines =>
        layouts.map (fun member => (member.1, member.2.anonymous)) = outlines)
      (buildNamedMembers members bit) (outlineNamedMembers dialect members bit) := by
  rw [buildNamedMembers_eq, outlineNamedMembers_eq, Outcome.map_eq_bind]
  refine (buildMembers_refines h bit).bind ?_
  rintro layouts _ rfl
  exact Build.refines_pure (List.zip_map_right ..).symm

/-- What a blueprint gives in an honest catalog is its outline with handles. -/
theorem build_refines (dialect : Dialect) (blueprint : Blueprint) (bit : Nat) :
    Build.Refines dialect (·.anonymous = ·) (blueprint.build bit)
      (blueprint.outline dialect bit) := by
  induction blueprint using induction_members generalizing bit with
  | format text => exact Build.format_refines text bit
  | finished layout => exact Build.place_refines layout bit
  | array count element ih =>
    refine (ih bit).bind ?_
    rintro layout _ rfl
    exact Build.share_refines fun handle => Layout.arrayOf_agree handle layout count
  | sequence members ih =>
    refine (buildMembers_refines ih bit).bind ?_
    rintro layouts _ rfl
    exact Build.share_refines fun handle => Layout.groupOf_agree handle .positional layouts
  | record members ih =>
    refine (Build.refines_ofExcept (.refl _)).bind fun _ _ _ => ?_
    refine (buildNamedMembers_refines ih bit).bind ?_
    rintro layouts _ rfl
    exact Build.share_refines fun handle => Layout.recordOf_agree handle layouts

end Blueprint

/-! ### Catalogs that requests lead to -/

private theorem Declaration.pack_refines (dialect : Dialect) (declaration : Declaration) :
    Build.Refines dialect (·.anonymous = ·) declaration.pack (do
      let blueprint ← declaration.toBlueprint
      blueprint.outline dialect 0) := by
  refine (Build.refines_ofExcept (.refl _)).bind ?_
  rintro blueprint _ rfl
  exact blueprint.build_refines dialect 0

namespace Request

/-- What the request gives without a catalog. One to keep a layout would give that layout, if there
were nothing under the signature. -/
def outline (dialect : Dialect) : Request → Except BuildError (List Layout × Option Nat)
  | .field shape size order bit => do
    Format.checkSize shape.letter shape size
    return ([.atom .blank (shape.field size order bit)], none)
  | .intern layout =>
    match layout.field? with
    | some own => .ok ([.atom .blank own], none)
    | none => .error (.notAtomic layout.signature)
  | .parse format bit => do
    let parsed ← Format.parse dialect format bit
    return (parsed.fields.map (.atom .blank), some parsed.bit)
  | .pack blueprint => do return ([← blueprint.outline dialect 0], none)
  | .declare declaration => do
    let blueprint ← declaration.toBlueprint
    return ([← blueprint.outline dialect 0], none)
  | .getOrAdd _ layout => .ok ([layout.anonymous], none)

/-- The request describes what it is to give. One to keep a layout may be given another one with the
same signature. -/
def Describes : Request → Prop
  | .getOrAdd _ _ => False
  | _ => True

/-- What a request gives in an honest catalog is its outline with handles, if it describes what it
is to give. -/
theorem run_refines (dialect : Dialect) {request : Request} (hr : request.Describes) :
    Build.Refines dialect (Prod.map (List.map Layout.anonymous) id · = ·) request.run
      (request.outline dialect) := by
  -- apart from a format string, a request gives one layout
  have single {x : Build Layout} {y : Except BuildError Layout}
      (h : Build.Refines dialect (·.anonymous = ·) x y) :
      Build.Refines dialect (Prod.map (List.map Layout.anonymous) id · = ·)
        (x >>= fun layout => pure ([layout], (none : Option Nat)))
        (y >>= fun outline => pure ([outline], none)) :=
    h.bind fun layout outline hlayout => Build.refines_pure (by simp [hlayout])
  cases request with
  | field shape size order bit =>
    have h := single (Build.field_refines shape size order bit)
    rwa [bind_assoc] at h
  | intern layout =>
    rw [run, outline, Build.intern]
    cases layout.field? with
    | some own => exact single (Build.internField_refines own)
    | none => exact fun catalog hc hd => ⟨.error, hc, hd⟩
  | parse format bit =>
    refine (Build.parse_refines format bit).bind ?_
    rintro ⟨layouts, finish⟩ parsed ⟨hlayouts, hfinish⟩
    exact Build.refines_pure (Prod.ext hlayouts (congrArg some hfinish))
  | pack blueprint => exact single (blueprint.build_refines dialect 0)
  | declare declaration =>
    have h := single (declaration.pack_refines dialect)
    rwa [bind_assoc] at h
  | getOrAdd signature layout => exact hr.elim

end Request

namespace Catalog

variable {catalog : Catalog}

/-- An honest request leaves an honest catalog. -/
theorem Honest.answer (hc : catalog.Honest) {request : Request} (hr : request.Honest) :
    (catalog.answer request).2.Honest ∧ (catalog.answer request).2.dialect = catalog.dialect := by
  cases request with
  | getOrAdd signature layout =>
    have hkept (handle : Handle) : (layout.withHandle handle).signature = signature :=
      (layout.signature_withHandle handle).trans hr
    exact (hc.getOrAdd signature (layout.withHandle ·) hkept).2
  | field | intern | parse | pack | declare =>
    exact (Request.run_refines catalog.dialect (by trivial) catalog hc rfl).2

/-- Honest requests one after the other leave an honest catalog. -/
theorem Honest.after (hc : catalog.Honest) {requests : List Request}
    (hr : ∀ request ∈ requests, request.Honest) :
    (catalog.after requests).Honest ∧ (catalog.after requests).dialect = catalog.dialect := by
  induction requests generalizing catalog with
  | nil => exact ⟨hc, rfl⟩
  | cons request requests ih =>
    obtain ⟨hc', hd⟩ := hc.answer (hr request (by simp))
    obtain ⟨hafter, hd'⟩ := ih hc' fun other hmem => hr other (by simp [hmem])
    exact ⟨hafter, hd'.trans hd⟩

theorem Reachable.honest (h : catalog.Reachable) : catalog.Honest := by
  obtain ⟨owner, dialect, requests, hr, rfl⟩ := h
  exact ((honest_empty owner dialect).after hr).1

end Catalog

/-- What a blueprint gives in a catalog with an honest history is its outline with handles. -/
theorem Catalog.Reachable.pack_agree {catalog : Catalog} (h : catalog.Reachable)
    (blueprint : Blueprint) :
    Agree (·.anonymous = ·) (blueprint.pack.run.run catalog).1
      (blueprint.outline catalog.dialect 0) :=
  (blueprint.build_refines catalog.dialect 0 catalog h.honest rfl).1

end BinaryLayout
