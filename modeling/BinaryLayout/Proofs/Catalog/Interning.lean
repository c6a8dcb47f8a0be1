import BinaryLayout.Proofs.Blueprint.Outline
import BinaryLayout.Proofs.Catalog.Growth

/-!
# Interning

The signatures that a request **asks** for are worked out from the request and the dialect alone:
those of the fields that it is about, up to the place where it fails, and only if a format string
can be read to its end. What a request does to an honest catalog is to look up or add layouts under
these signatures (`Request.run_asks`), so that it is known of every run which layouts the catalog
has at its end, and that fields of one signature are one instance (`Catalog.run_interns`).
-/

namespace BinaryLayout

open Outcome (onOk)

/-! ### Signatures asked for -/

/-- The signature of the field of a shape and size, if it can have that size. -/
def Shape.asked (shape : Shape) (size : Nat) (order : ByteOrder) (bit : Nat) : List String :=
  onOk (Format.checkSize shape.letter shape size) fun _ => [(shape.field size order bit).signature]

/-- The signatures of the fields of a format string, if it can be read to its end. -/
def Format.asked (dialect : Dialect) (text : String) (bit : Nat) : List String :=
  onOk (Format.parse dialect text bit) fun parsed => parsed.fields.map Field.signature

/-- The signature of the bit field that takes the place of a finished one at another bit. -/
def Layout.asked (layout : Layout) (bit : Nat) : List String :=
  match layout.field? with
  | some (.bits width offset) => if offset = bit % 8 then [] else Shape.bits.asked width .little bit
  | _ => []

namespace Blueprint

mutual

/-- The signatures that a blueprint asks for when its first bit is the bit `bit` of the whole. -/
def asked (dialect : Dialect) : Blueprint → Nat → List String
  | .format text, bit => Format.asked dialect text bit
  | .finished layout, bit => layout.asked bit
  | .array _ element, bit => element.asked dialect bit
  | .sequence members, bit => askedByMembers dialect members bit
  | .record members, bit =>
    onOk (Layout.checkNames (members.map Prod.fst)) fun _ =>
      askedByNamedMembers dialect members bit

/-- The signatures that members ask for, up to the first that cannot be built. -/
def askedByMembers (dialect : Dialect) : List Blueprint → Nat → List String
  | [], _ => []
  | member :: members, bit =>
    member.asked dialect bit ++ onOk (member.outline dialect bit) fun layout =>
      onOk (advance bit layout.bitSize) fun next => askedByMembers dialect members next

/-- The signatures that named members ask for, up to the first that cannot be built. -/
def askedByNamedMembers (dialect : Dialect) : List (String × Blueprint) → Nat → List String
  | [], _ => []
  | (_, member) :: members, bit =>
    member.asked dialect bit ++ onOk (member.outline dialect bit) fun layout =>
      onOk (advance bit layout.bitSize) fun next => askedByNamedMembers dialect members next

end

end Blueprint

/-- The signatures that a request asks for. -/
def Request.asked (dialect : Dialect) : Request → List String
  | .field shape size order bit => shape.asked size order bit
  | .intern layout => (layout.field?.map Field.signature).toList
  | .parse format bit => Format.asked dialect format bit
  | .pack blueprint => blueprint.asked dialect 0
  | .declare declaration => onOk declaration.toBlueprint fun blueprint => blueprint.asked dialect 0
  | .getOrAdd signature _ => [signature]

/-! ### Builds -/

namespace Build

variable {dialect : Dialect}

private theorem internField_asks (field : Field) :
    Asks dialect (internField field) [field.signature] :=
  asks_getOrAdd ⟨fun _ => rfl, fun _ => rfl⟩

private theorem internFields_asks (fields : List Field) :
    Asks dialect (internFields fields) (fields.map Field.signature) := by
  induction fields with
  | nil => exact asks_pure _
  | cons field fields ih =>
    exact (internField_asks field).bind (internField_refines field)
      (t := fun _ => fields.map Field.signature) fun _ _ _ => ih.bind_nil fun _ => asks_pure _

private theorem field_asks (shape : Shape) (size : Nat) (order : ByteOrder) (bit : Nat) :
    Asks dialect (field shape size order bit) (shape.asked size order bit) :=
  asks_ofExcept_bind fun _ _ => internField_asks _

private theorem parse_asks (text : String) (bit : Nat) :
    Asks dialect (parse text bit) (Format.asked dialect text bit) := by
  refine asks_get fun catalog hd => ?_
  rw [hd]
  exact asks_ofExcept_bind fun parsed _ =>
    (internFields_asks parsed.fields).bind_nil fun _ => asks_pure _

private theorem share_asks (make : Handle → Except BuildError Layout) :
    Asks dialect (share make) [] :=
  asks_issue.bind_nil fun _ => asks_ofExcept _

private theorem format_asks (text : String) (bit : Nat) :
    Asks dialect (format text bit) (Format.asked dialect text bit) := by
  refine (parse_asks text bit).bind_nil ?_
  rintro ⟨layouts, finish⟩
  match layouts with
  | [layout] => exact asks_pure _
  | [] => exact share_asks _
  | first :: second :: layouts => exact share_asks _

private theorem place_asks (layout : Layout) (bit : Nat) :
    Asks dialect (place layout bit) (layout.asked bit) := by
  match layout with
  | .atom handle (.bits width offset) =>
    change Asks dialect (if offset = bit % 8 then _ else _) (if offset = bit % 8 then _ else _)
    split
    · exact asks_pure _
    · exact field_asks .bits width .little bit
  | .atom _ (.integer _ _ _) | .atom _ (.raw _) | .array _ _ _ _ | .group _ _ _ _ _ =>
    exact asks_pure _

end Build

namespace Blueprint

/-- The names of members have no part in what they ask for. -/
theorem askedByNamedMembers_eq (dialect : Dialect) (members : List (String × Blueprint))
    (bit : Nat) :
    askedByNamedMembers dialect members bit =
      askedByMembers dialect (members.map Prod.snd) bit := by
  induction members generalizing bit with
  | nil => rfl
  | cons member members ih => simp only [askedByNamedMembers, ih, List.map_cons, askedByMembers]

/-- What the build of members asks for, if it is known of each of them. -/
theorem buildMembers_asks {dialect : Dialect} {members : List Blueprint}
    (h : ∀ member ∈ members, ∀ bit,
      Build.Asks dialect (member.build bit) (member.asked dialect bit)) (bit : Nat) :
    Build.Asks dialect (buildMembers members bit) (askedByMembers dialect members bit) := by
  induction members generalizing bit with
  | nil => exact Build.asks_pure _
  | cons member members ih =>
    obtain ⟨hmember, hmembers⟩ := List.forall_mem_cons.mp h
    refine (hmember bit).bind (build_refines dialect member bit) ?_
    rintro layout _ rfl
    rw [Layout.bitSize_anonymous]
    exact Build.asks_ofExcept_bind fun next _ =>
      (ih hmembers next).bind_nil fun _ => Build.asks_pure _

/-- What the build of a blueprint asks for. -/
theorem build_asks (dialect : Dialect) (blueprint : Blueprint) (bit : Nat) :
    Build.Asks dialect (blueprint.build bit) (blueprint.asked dialect bit) := by
  induction blueprint using induction_members generalizing bit with
  | format text => exact Build.format_asks text bit
  | finished layout => exact Build.place_asks layout bit
  | array count element ih => exact (ih bit).bind_nil fun _ => Build.share_asks _
  | sequence members ih => exact (buildMembers_asks ih bit).bind_nil fun _ => Build.share_asks _
  | record members ih =>
    refine Build.asks_ofExcept_bind fun _ _ => ?_
    rw [askedByNamedMembers_eq, buildNamedMembers_eq]
    have hmembers := (buildMembers_asks ih bit).bind_nil
      (f := fun layouts => pure ((members.map Prod.fst).zip layouts)) fun _ => Build.asks_pure _
    exact hmembers.bind_nil fun _ => Build.share_asks _

end Blueprint

/-- What an honest request asks for. -/
theorem Request.run_asks (dialect : Dialect) {request : Request} (hr : request.Honest) :
    Build.Asks dialect request.run (request.asked dialect) := by
  cases request with
  | field shape size order bit =>
    exact (Build.field_asks shape size order bit).bind_nil fun _ => Build.asks_pure _
  | intern layout =>
    rw [run, asked, Build.intern]
    cases layout.field? with
    | some own => exact (Build.internField_asks own).bind_nil fun _ => Build.asks_pure _
    | none => exact fun _ _ _ => .refl
  | parse format bit => exact (Build.parse_asks format bit).bind_nil fun _ => Build.asks_pure _
  | pack blueprint => exact (blueprint.build_asks dialect 0).bind_nil fun _ => Build.asks_pure _
  | declare declaration =>
    have h : Build.Asks dialect declaration.pack (asked dialect (.declare declaration)) :=
      Build.asks_ofExcept_bind fun blueprint _ => blueprint.build_asks dialect 0
    exact h.bind_nil fun _ => Build.asks_pure _
  | getOrAdd signature layout =>
    have hmakes : Catalog.Makes signature fun handle => layout.withHandle handle :=
      ⟨fun handle => (layout.signature_withHandle handle).trans hr,
        fun handle => layout.handle_withHandle handle⟩
    exact (Build.asks_getOrAdd hmakes).bind_nil fun _ => Build.asks_pure _

/-! ### Shared fields -/

namespace Build

variable {catalog last : Catalog}

private theorem run_internField (field : Field) :
    (internField field).run.run catalog =
      (.ok (catalog.getOrAdd field.signature (.atom · field)).1,
        (catalog.getOrAdd field.signature (.atom · field)).2) := rfl

/-- The instance that is given for a field is kept under its signature. -/
private theorem find?_internField (hc : catalog.Honest) {field : Field} {layout : Layout}
    (h : (internField field).run.run catalog = (.ok layout, last)) :
    last.find? layout.signature = some layout := by
  obtain ⟨hsignature, -⟩ := hc.getOrAdd field.signature (.atom · field) fun _ => rfl
  rw [run_internField] at h
  obtain ⟨hlayout, rfl⟩ := Prod.mk.inj h
  obtain rfl := Except.ok.inj hlayout
  rw [hsignature]
  exact catalog.find?_getOrAdd _ _

/-- The instance that is given for a shape and size is kept under its signature. -/
theorem find?_field (hc : catalog.Honest) {shape : Shape} {size : Nat} {order : ByteOrder}
    {bit : Nat} {layout : Layout}
    (h : (field shape size order bit).run.run catalog = (.ok layout, last)) :
    last.find? layout.signature = some layout := by
  obtain ⟨_, later, hcheck, h⟩ := run_bind_eq_ok_iff.mp h
  obtain ⟨-, rfl⟩ := run_ofExcept_eq_ok_iff.mp hcheck
  exact find?_internField hc h

private theorem find?_internFields (hc : catalog.Honest) {fields : List Field}
    {layouts : List Layout} (h : (internFields fields).run.run catalog = (.ok layouts, last)) :
    ∀ layout ∈ layouts, last.find? layout.signature = some layout := by
  induction fields generalizing catalog layouts with
  | nil =>
    obtain ⟨rfl, -⟩ := run_pure_eq_ok_iff.mp h
    simp
  | cons field fields ih =>
    obtain ⟨first, later, hfirst, h⟩ := run_bind_eq_ok_iff.mp h
    obtain ⟨rest, later', hrest, h⟩ := run_bind_eq_ok_iff.mp h
    obtain ⟨rfl, rfl⟩ := run_pure_eq_ok_iff.mp h
    have hgrows := (internField_asks field).grows hc rfl hfirst
    have hgrows' := (internFields_asks fields).grows (hgrows.honest hc) rfl hrest
    -- the first one is still there after the others
    intro layout hmem
    rcases List.mem_cons.mp hmem with rfl | hmem
    · exact hgrows'.find? (find?_internField hc hfirst)
    · exact ih (hgrows.honest hc) hrest layout hmem

/-- A format string is parsed into instances that are kept. -/
theorem find?_parse (hc : catalog.Honest) {text : String} {bit finish : Nat}
    {layouts : List Layout} (h : (parse text bit).run.run catalog = (.ok (layouts, finish), last)) :
    ∀ layout ∈ layouts, last.find? layout.signature = some layout := by
  obtain ⟨own, later, hget, h⟩ := run_bind_eq_ok_iff.mp h
  cases hget
  obtain ⟨parsed, later, hread, h⟩ := run_bind_eq_ok_iff.mp h
  obtain ⟨-, rfl⟩ := run_ofExcept_eq_ok_iff.mp hread
  obtain ⟨shared, later, hshared, h⟩ := run_bind_eq_ok_iff.mp h
  obtain ⟨hpair, rfl⟩ := run_pure_eq_ok_iff.mp h
  obtain ⟨rfl, -⟩ := Prod.mk.inj hpair
  exact find?_internFields hc hshared

end Build

/-- The request is answered with shared fields. -/
def Request.ForFields : Request → Prop
  | .field _ _ _ _ | .intern _ | .parse _ _ => True
  | _ => False

namespace Catalog

variable {catalog : Catalog} {dialect : Dialect} {request : Request} {requests : List Request}

/-- Shared fields are kept under their signatures once they are given. -/
private theorem Honest.find?_answer (hc : catalog.Honest) (hf : request.ForFields)
    {given : List Layout × Option Nat} (h : (catalog.answer request).1 = .ok given) :
    ∀ layout ∈ given.1, (catalog.answer request).2.find? layout.signature = some layout := by
  have hrun : request.run.run.run catalog = (.ok given, (catalog.answer request).2) :=
    Prod.ext h rfl
  generalize (catalog.answer request).2 = last at hrun ⊢
  cases request with
  | field shape size order bit =>
    obtain ⟨layout, later, hfield, hrun⟩ := Build.run_bind_eq_ok_iff.mp hrun
    obtain ⟨rfl, rfl⟩ := Build.run_pure_eq_ok_iff.mp hrun
    simpa using Build.find?_field hc hfield
  | intern layout =>
    rw [Request.run, Build.intern] at hrun
    obtain ⟨shared, later, hintern, hrun⟩ := Build.run_bind_eq_ok_iff.mp hrun
    obtain ⟨rfl, rfl⟩ := Build.run_pure_eq_ok_iff.mp hrun
    cases hown : layout.field? with
    | some own =>
      rw [hown] at hintern
      simpa using Build.find?_internField hc hintern
    | none =>
      rw [hown] at hintern
      cases hintern
  | parse format bit =>
    obtain ⟨⟨layouts, finish⟩, later, hparse, hrun⟩ := Build.run_bind_eq_ok_iff.mp hrun
    obtain ⟨rfl, rfl⟩ := Build.run_pure_eq_ok_iff.mp hrun
    exact Build.find?_parse hc hparse
  | pack | declare | getOrAdd => exact hf.elim

/-! ### Runs -/

/-- An honest catalog grows by what a run of honest requests asks for. -/
theorem Honest.after_grows (hc : catalog.Honest) (hr : ∀ request ∈ requests, request.Honest) :
    catalog.Grows (requests.flatMap (·.asked catalog.dialect)) (catalog.after requests) := by
  induction requests generalizing catalog with
  | nil => exact .refl
  | cons request requests ih =>
    have hfirst := request.run_asks catalog.dialect (hr request (by simp)) catalog hc rfl
    have hrest := ih (hfirst.honest hc) fun other hmem => hr other (by simp [hmem])
    rw [hfirst.dialect_eq] at hrest
    exact hfirst.trans hrest

/-- In the course of the requests, the layout is given for one that is answered with shared
fields. -/
def Gives (catalog : Catalog) (requests : List Request) (layout : Layout) : Prop :=
  ∃ before request after given, requests = before ++ request :: after ∧ request.ForFields ∧
    ((catalog.after before).answer request).1 = .ok given ∧ layout ∈ given.1

/-- What is kept stays, whatever is requested next. -/
theorem Honest.find?_after_append (hc : catalog.Honest) {before after : List Request}
    (hr : ∀ request ∈ before ++ after, request.Honest) {key : String} {layout : Layout}
    (h : (catalog.after before).find? key = some layout) :
    (catalog.after (before ++ after)).find? key = some layout := by
  have hbefore := hc.after_grows fun request hmem => hr request (List.mem_append_left _ hmem)
  have hafter := (hbefore.honest hc).after_grows fun request hmem =>
    hr request (List.mem_append_right _ hmem)
  rw [Catalog.after, List.foldl_append]
  exact hafter.find? h

/-- A shared field that was given in a run is kept at its end. -/
theorem Honest.find?_of_gives (hc : catalog.Honest) (hr : ∀ request ∈ requests, request.Honest)
    {layout : Layout} (h : catalog.Gives requests layout) :
    (catalog.after requests).find? layout.signature = some layout := by
  obtain ⟨before, request, after, given, rfl, hf, hgiven, hmem⟩ := h
  rw [List.append_cons] at hr ⊢
  refine hc.find?_after_append hr ?_
  have hbefore : (catalog.after before).Honest :=
    (hc.after_grows fun other hmem => hr other (by simp [hmem])).honest hc
  rw [Catalog.after, List.foldl_append]
  exact hbefore.find?_answer hf hgiven layout hmem

/-- What a sound catalog keeps is one instance exactly if it has one structure, and exactly if it
has one signature. -/
theorem Sound.sameInstance_iff (hc : catalog.Sound) {a b : Layout}
    (ha : catalog.find? a.signature = some a) (hb : catalog.find? b.signature = some b) :
    (a.sameInstance b = true ↔ a.sameStructure b = true) ∧
      (a.sameStructure b = true ↔ a.signature = b.signature) := by
  have hsignature : a.sameStructure b = true → a.signature = b.signature := by
    intro h
    rw [← a.signature_anonymous, Layout.sameStructure_iff.mp h, b.signature_anonymous]
  have heq : a.signature = b.signature → a = b := by
    intro h
    rw [h, hb] at ha
    exact (Option.some.inj ha).symm
  have hinstance : a.sameInstance b = true ↔ a = b := by
    rw [Layout.sameInstance, beq_iff_eq]
    exact ⟨hc.eq_of_handle_eq ha hb, congrArg Layout.handle⟩
  have hstructure : a.sameStructure b = true ↔ a = b := by
    refine ⟨fun h => heq (hsignature h), ?_⟩
    rintro rfl
    exact Layout.sameStructure_iff.mpr rfl
  exact ⟨hinstance.trans hstructure.symm, hsignature, fun h => hstructure.mpr (heq h)⟩

/-- Whatever a catalog has been asked for, with success or without, its keys are the signatures of
what it keeps under them, and nothing that it keeps is ever taken away or replaced. It keeps layouts
under exactly the signatures asked for and counts them without repetition. Fields that it gives in
the course of a run are one instance exactly if they have the same structure, and exactly if they
have the same signature. -/
theorem run_interns (owner : Nat) (dialect : Dialect) (hr : ∀ request ∈ requests, request.Honest) :
    (∀ key layout, (key, layout) ∈ ((empty owner dialect).after requests).entries →
      layout.signature = key) ∧
    (∀ before after, requests = before ++ after → ∀ key layout,
      ((empty owner dialect).after before).find? key = some layout →
        ((empty owner dialect).after requests).find? key = some layout) ∧
    ((empty owner dialect).after requests).size =
      (requests.flatMap (·.asked dialect)).toFinset.card ∧
    (∀ key, ((empty owner dialect).after requests).contains key = true ↔
      key ∈ requests.flatMap (·.asked dialect)) ∧
    ∀ a b, (empty owner dialect).Gives requests a → (empty owner dialect).Gives requests b →
      (a.sameInstance b = true ↔ a.sameStructure b = true) ∧
        (a.sameStructure b = true ↔ a.signature = b.signature) := by
  have hempty := sound_empty owner dialect
  have hgrows := hempty.honest.after_grows hr
  have hsound := hgrows.sound hempty
  have hkeys (key : String) : key ∈ ((empty owner dialect).after requests).keys ↔
      key ∈ requests.flatMap (·.asked dialect) := by
    rw [hgrows.mem_keys]
    exact or_iff_right List.not_mem_nil
  refine ⟨fun key layout hmem => hsound.honest _ hmem, ?_, ?_, ?_, ?_⟩
  · rintro before after rfl key layout hfound
    exact hempty.honest.find?_after_append hr hfound
  · rw [hsound.size_eq]
    congr 1
    ext key
    rw [List.mem_toFinset, List.mem_toFinset, hkeys]
  · intro key
    rw [contains_iff, hkeys]
  · intro a b ha hb
    exact hsound.sameInstance_iff (hempty.honest.find?_of_gives hr ha)
      (hempty.honest.find?_of_gives hr hb)

/-- A build that fails after two fields, a byte, a byte with a number behind it, and an array to be
kept. -/
def mixedRequests : List Request :=
  [.pack (.sequence [.format "B", .format "R3", .format "H"]),
    .field (.integer .unsigned) 1 .big 0, .parse "BH" 0,
    .getOrAdd "Array[2]" (.array ⟨1, 0⟩ (.atom ⟨1, 1⟩ (.raw 3)) 2 48)]

theorem run_interns_mixedRequests :
    ((empty 0 .big).after mixedRequests).size = 4 ∧
      ((empty 0 .big).after mixedRequests).contains "Bit3_0" = true ∧
        ∃ byte number, (empty 0 .big).Gives mixedRequests byte ∧
          (empty 0 .big).Gives mixedRequests number ∧ ¬ byte.sameInstance number = true := by
  have hr : ∀ request ∈ mixedRequests, request.Honest := by
    simp only [mixedRequests, List.forall_mem_cons, Request.Honest, true_and, List.not_mem_nil,
      false_imp_iff, implies_true, and_true]
    decide
  obtain ⟨-, -, hsize, hcontains, hshared⟩ := run_interns 0 .big hr
  have hbyte : (empty 0 .big).Gives mixedRequests (.atom ⟨0, 0⟩ (.integer .unsigned 1 .big)) :=
    ⟨mixedRequests.take 1, _, _, ([.atom ⟨0, 0⟩ (.integer .unsigned 1 .big)], none), rfl, trivial,
      by decide +kernel, List.mem_singleton_self _⟩
  have hnumber : (empty 0 .big).Gives mixedRequests (.atom ⟨0, 2⟩ (.integer .unsigned 2 .big)) :=
    ⟨mixedRequests.take 2, _, _, ([.atom ⟨0, 0⟩ (.integer .unsigned 1 .big),
      .atom ⟨0, 2⟩ (.integer .unsigned 2 .big)], some 24), rfl, trivial, by decide +kernel, by simp⟩
  refine ⟨hsize.trans (by decide +kernel), (hcontains _).mpr (by decide +kernel), _, _, hbyte,
    hnumber, fun h => ?_⟩
  obtain ⟨hinstance, hstructure⟩ := hshared _ _ hbyte hnumber
  exact absurd (hstructure.mp (hinstance.mp h)) (by decide)

end Catalog

end BinaryLayout
