import BinaryLayout.Layout.Leaf
import BinaryLayout.Proofs.Catalog.Interning
import BinaryLayout.Proofs.Format.Reads

/-!
# Fields that stand as they were given

A catalog **holds** a node if the node is the very instance that the catalog keeps under its
signature. Of the fields in the layout of a blueprint, those of format strings are held, and so are
the bit fields that take the place of finished ones. A finished layout that fits where it is placed
is taken as it is, whatever catalog it is from. Its fields are **standing** in the blueprint, and
all fields of the layout are held exactly if those are (`Catalog.Reachable.holds_fields_iff`).
-/

namespace BinaryLayout

open Outcome (onOk)

/-- The node is the instance that the catalog keeps under its signature. -/
def Catalog.Holds (catalog : Catalog) (node : Layout) : Prop :=
  catalog.find? node.signature = some node

instance (catalog : Catalog) (node : Layout) : Decidable (catalog.Holds node) :=
  inferInstanceAs (Decidable (_ = _))

/-- The fields of a finished layout placed at `bit`, unless another field takes its place. -/
def Layout.standing (layout : Layout) (bit : Nat) : List Layout :=
  match layout.field? with
  | some (.bits _ offset) => if offset = bit % 8 then layout.fieldNodes else []
  | _ => layout.fieldNodes

namespace Blueprint

mutual

/-- The fields of the finished layouts that are taken as they are, when the first bit of the
blueprint is the bit `bit` of the whole. -/
def standing (dialect : Dialect) : Blueprint → Nat → List Layout
  | .format _, _ => []
  | .finished layout, bit => layout.standing bit
  | .array _ element, bit => element.standing dialect bit
  | .sequence members, bit => standingInMembers dialect members bit
  | .record members, bit => standingInNamedMembers dialect members bit

/-- The standing fields of members, each of which starts where the one before it ends. -/
def standingInMembers (dialect : Dialect) : List Blueprint → Nat → List Layout
  | [], _ => []
  | member :: members, bit =>
    member.standing dialect bit ++ onOk (member.outline dialect bit) fun layout =>
      standingInMembers dialect members (bit + layout.bitSize)

/-- The standing fields of named members. -/
def standingInNamedMembers (dialect : Dialect) : List (String × Blueprint) → Nat → List Layout
  | [], _ => []
  | (_, member) :: members, bit =>
    member.standing dialect bit ++ onOk (member.outline dialect bit) fun layout =>
      standingInNamedMembers dialect members (bit + layout.bitSize)

end

end Blueprint

/-! ### Accounts -/

namespace Catalog

variable {catalog later : Catalog} {nodes nodes' standing standing' : List Layout}
  {signatures : List String}

/-- The standing nodes are among the nodes, and the catalog holds all others. -/
structure Accounts (catalog : Catalog) (nodes standing : List Layout) : Prop where
  holds : ∀ node ∈ nodes, catalog.Holds node ∨ node ∈ standing
  mem : ∀ node ∈ standing, node ∈ nodes

private theorem Accounts.forall_holds_iff (h : catalog.Accounts nodes standing) :
    (∀ node ∈ nodes, catalog.Holds node) ↔ ∀ node ∈ standing, catalog.Holds node :=
  ⟨fun hn node hmem => hn node (h.mem node hmem),
    fun hs node hmem => (h.holds node hmem).elim id (hs node)⟩

private theorem accounts_of_forall_holds (h : ∀ node ∈ nodes, catalog.Holds node) :
    catalog.Accounts nodes [] :=
  ⟨fun node hmem => .inl (h node hmem), nofun⟩

private theorem accounts_self (nodes : List Layout) : catalog.Accounts nodes nodes :=
  ⟨fun _ => .inr, fun _ => id⟩

/-- What is held stays held. -/
private theorem Accounts.mono (h : catalog.Accounts nodes standing)
    (hg : catalog.Grows signatures later) : later.Accounts nodes standing :=
  ⟨fun node hmem => (h.holds node hmem).imp_left hg.find?, h.mem⟩

theorem Accounts.append (h : catalog.Accounts nodes standing)
    (h' : catalog.Accounts nodes' standing') :
    catalog.Accounts (nodes ++ nodes') (standing ++ standing') where
  holds node hmem := by
    rw [List.mem_append]
    rcases List.mem_append.mp hmem with hmem | hmem
    · exact (h.holds node hmem).imp_right .inl
    · exact (h'.holds node hmem).imp_right .inr
  mem node hmem :=
    List.mem_append.mpr ((List.mem_append.mp hmem).imp (h.mem node) (h'.mem node))

end Catalog

/-! ### Builds -/

/-- A field without its handle is its own node. -/
private theorem Layout.fieldNodes_of_anonymous {layout : Layout} {field : Field}
    (h : layout.anonymous = .atom .blank field) : layout.fieldNodes = [layout] := by
  cases layout with
  | atom handle own => rfl
  | array | group => cases h

theorem Layout.fieldNodesOf_of_map_anonymous {layouts : List Layout} {fields : List Field}
    (h : layouts.map anonymous = fields.map (.atom .blank)) : fieldNodesOf layouts = layouts := by
  induction layouts generalizing fields with
  | nil => rfl
  | cons layout layouts ih =>
    obtain ⟨field, fields, rfl, hfield, hfields⟩ := List.map_eq_cons_iff.mp h.symm
    rw [fieldNodesOf, fieldNodes_of_anonymous hfield.symm, ih hfields.symm, List.singleton_append]

namespace Build

variable {catalog last : Catalog} {layout : Layout}

/-- A composite is made after a handle is issued, and nothing else is done. -/
private theorem run_share {make : Handle → Except BuildError Layout}
    (h : (share make).run.run catalog = (.ok layout, last)) :
    (∃ handle, make handle = .ok layout) ∧ catalog.Grows [] last := by
  obtain ⟨handle, later, hissue, h⟩ := run_bind_eq_ok_iff.mp h
  obtain ⟨-, rfl⟩ := Prod.mk.inj hissue
  obtain ⟨hmake, rfl⟩ := run_ofExcept_eq_ok_iff.mp h
  exact ⟨⟨handle, hmake⟩, .issue .refl⟩

/-- A group accounts for what its members account for. -/
private theorem accounts_group {labels : Labels} {members : List Layout} {standing : List Layout}
    (hm : catalog.Accounts (Layout.fieldNodesOf members) standing)
    (h : (share fun handle => Layout.groupOf handle labels members).run.run catalog =
      (.ok layout, last)) : last.Accounts layout.fieldNodes standing := by
  obtain ⟨⟨handle, hgroup⟩, hgrows⟩ := run_share h
  obtain ⟨-, -, rfl⟩ := Layout.groupOf_eq_ok_iff.mp hgroup
  exact hm.mono hgrows

private theorem accounts_field (hc : catalog.Honest) {shape : Shape} {size : Nat}
    {order : ByteOrder} {bit : Nat}
    (h : (field shape size order bit).run.run catalog = (.ok layout, last)) :
    last.Accounts layout.fieldNodes [] := by
  obtain ⟨outline, houtline, hlayout⟩ := (field_refines shape size order bit).exists_ok hc rfl h
  obtain ⟨-, houtline⟩ := Outcome.check_eq_ok_iff.mp houtline
  obtain rfl := Except.ok.inj houtline
  rw [Layout.fieldNodes_of_anonymous hlayout]
  exact Catalog.accounts_of_forall_holds (List.forall_mem_singleton.mpr (find?_field hc h))

private theorem accounts_format (hc : catalog.Honest) {text : String} {bit : Nat}
    (h : (format text bit).run.run catalog = (.ok layout, last)) :
    last.Accounts layout.fieldNodes [] := by
  obtain ⟨⟨layouts, finish⟩, later, hparse, h⟩ := run_bind_eq_ok_iff.mp h
  obtain ⟨parsed, -, hfields, -⟩ := (parse_refines text bit).exists_ok hc rfl hparse
  have haccounts : later.Accounts (Layout.fieldNodesOf layouts) [] := by
    rw [Layout.fieldNodesOf_of_map_anonymous hfields]
    exact Catalog.accounts_of_forall_holds (find?_parse hc hparse)
  match layouts with
  | [single] =>
    obtain ⟨rfl, rfl⟩ := run_pure_eq_ok_iff.mp h
    simpa [Layout.fieldNodesOf] using haccounts
  | [] => exact accounts_group haccounts h
  | first :: second :: layouts => exact accounts_group haccounts h

/-- A finished layout accounts for itself, and the field that takes its place is held. -/
private theorem accounts_place (hc : catalog.Honest) {finished : Layout} {bit : Nat}
    (h : (place finished bit).run.run catalog = (.ok layout, last)) :
    last.Accounts layout.fieldNodes (finished.standing bit) := by
  match finished with
  | .atom handle (.bits width offset) =>
    change (if offset = bit % 8 then (pure (.atom handle (.bits width offset)) : Build Layout)
      else bits width bit).run.run catalog = _ at h
    change last.Accounts _ (if offset = bit % 8 then [.atom handle (.bits width offset)] else [])
    split at h
    · rename_i hoffset
      obtain ⟨rfl, rfl⟩ := run_pure_eq_ok_iff.mp h
      rw [if_pos hoffset]
      exact Catalog.accounts_self _
    · rename_i hoffset
      rw [if_neg hoffset]
      exact accounts_field hc h
  | .atom _ (.integer _ _ _) | .atom _ (.raw _) | .array _ _ _ _ | .group _ _ _ _ _ =>
    obtain ⟨rfl, rfl⟩ := run_pure_eq_ok_iff.mp h
    exact Catalog.accounts_self _

end Build

namespace Blueprint

variable {dialect : Dialect}

/-- A member is built, and those behind it from where it ends, in the catalog after it. -/
private theorem run_cons {α β : Type} {catalog last : Catalog} {member : Blueprint} {bit : Nat}
    {rest : Nat → Build α} {join : Layout → α → β} {result : β}
    (h : (do
      let layout ← member.build bit
      let next ← Build.ofExcept (advance bit layout.bitSize)
      let others ← rest next
      return join layout others : Build β).run.run catalog = (.ok result, last)) :
    ∃ layout later others, (member.build bit).run.run catalog = (.ok layout, later) ∧
      (rest (bit + layout.bitSize)).run.run later = (.ok others, last) ∧
        result = join layout others := by
  obtain ⟨layout, later, hbuild, h⟩ := Build.run_bind_eq_ok_iff.mp h
  obtain ⟨next, later, hadvance, h⟩ := Build.run_bind_eq_ok_iff.mp h
  obtain ⟨hnext, rfl⟩ := Build.run_ofExcept_eq_ok_iff.mp hadvance
  obtain ⟨rfl, -⟩ := Format.advance_eq_ok_iff.mp hnext
  obtain ⟨others, last, hrest, h⟩ := Build.run_bind_eq_ok_iff.mp h
  obtain ⟨rfl, rfl⟩ := Build.run_pure_eq_ok_iff.mp h
  exact ⟨layout, later, others, hbuild, hrest, rfl⟩

/-- A member and those behind it account for their standing fields if each of the two does. -/
private theorem accounts_cons {catalog later last : Catalog} {signatures : List String}
    (hc : catalog.Honest) (hd : catalog.dialect = dialect) {member : Blueprint} {bit : Nat}
    {layout : Layout} (hbuild : (member.build bit).run.run catalog = (.ok layout, later))
    (hm : later.Accounts layout.fieldNodes (member.standing dialect bit))
    (hg : later.Grows signatures last) {layouts : List Layout} {standing : Nat → List Layout}
    (hrest : last.Accounts (Layout.fieldNodesOf layouts) (standing (bit + layout.bitSize))) :
    last.Accounts (Layout.fieldNodesOf (layout :: layouts)) (member.standing dialect bit ++
      onOk (member.outline dialect bit) fun outline => standing (bit + outline.bitSize)) := by
  obtain ⟨outline, houtline, rfl⟩ := (build_refines dialect member bit).exists_ok hc hd hbuild
  rw [houtline]
  simp only [onOk, Layout.bitSize_anonymous]
  exact (hm.mono hg).append hrest

/-- A record is built as its members are, which are then put together under its names. -/
private theorem run_record {catalog last : Catalog} {members : List (String × Blueprint)}
    {bit : Nat} {layout : Layout}
    (h : ((record members).build bit).run.run catalog = (.ok layout, last)) :
    ∃ layouts later, (buildMembers (members.map Prod.snd) bit).run.run catalog =
        (.ok layouts, later) ∧
      (Build.share fun handle =>
        Layout.groupOf handle (.named (members.map Prod.fst)) layouts).run.run later =
          (.ok layout, last) := by
  rw [build, buildNamedMembers_eq] at h
  obtain ⟨_, later, hcheck, h⟩ := Build.run_bind_eq_ok_iff.mp h
  obtain ⟨hnames, rfl⟩ := Build.run_ofExcept_eq_ok_iff.mp hcheck
  obtain ⟨_, later, hnamed, h⟩ := Build.run_bind_eq_ok_iff.mp h
  obtain ⟨layouts, later, hbuild, hnamed⟩ := Build.run_bind_eq_ok_iff.mp hnamed
  obtain ⟨rfl, rfl⟩ := Build.run_pure_eq_ok_iff.mp hnamed
  refine ⟨layouts, later, hbuild, ?_⟩
  have hlength : layouts.length = (members.map Prod.fst).length := by
    rw [length_of_buildMembers hbuild, List.length_map, List.length_map]
  simp only [Layout.recordOf_zip hlength, hnames] at h
  exact h

/-- The names of members have no part in their standing fields. -/
private theorem standingInNamedMembers_eq (members : List (String × Blueprint)) (bit : Nat) :
    standingInNamedMembers dialect members bit =
      standingInMembers dialect (members.map Prod.snd) bit := by
  induction members generalizing bit with
  | nil => rfl
  | cons member members ih =>
    simp only [standingInNamedMembers, ih, List.map_cons, standingInMembers]

/-- What members give accounts for their standing fields, if what each of them gives does. -/
private theorem buildMembers_accounts {members : List Blueprint}
    (h : ∀ member ∈ members, ∀ {bit : Nat} {layout : Layout} {catalog last : Catalog},
      catalog.Honest → catalog.dialect = dialect →
        (member.build bit).run.run catalog = (.ok layout, last) →
          last.Accounts layout.fieldNodes (member.standing dialect bit))
    {bit : Nat} {layouts : List Layout} {catalog last : Catalog} (hc : catalog.Honest)
    (hd : catalog.dialect = dialect)
    (hm : (buildMembers members bit).run.run catalog = (.ok layouts, last)) :
    last.Accounts (Layout.fieldNodesOf layouts) (standingInMembers dialect members bit) := by
  induction members generalizing bit layouts catalog last with
  | nil =>
    obtain ⟨rfl, rfl⟩ := Build.run_pure_eq_ok_iff.mp hm
    exact Catalog.accounts_self _
  | cons member members ih =>
    obtain ⟨layout, later, rest, hbuild, hrest, rfl⟩ := run_cons hm
    have hfirst := (build_asks dialect member bit).grows hc hd hbuild
    have hlater := hfirst.honest hc
    have hdialect := hfirst.dialect_eq.trans hd
    have hasks := buildMembers_asks (fun member (_ : member ∈ members) =>
      build_asks dialect member) (bit + layout.bitSize)
    exact accounts_cons hc hd hbuild (h member List.mem_cons_self hc hd hbuild)
      (hasks.grows hlater hdialect hrest)
      (ih (fun other hmem => h other (List.mem_cons_of_mem _ hmem)) hlater hdialect hrest)

/-- What a blueprint gives accounts for its standing fields. -/
theorem build_accounts (blueprint : Blueprint) {bit : Nat} {layout : Layout}
    {catalog last : Catalog} (hc : catalog.Honest) (hd : catalog.dialect = dialect)
    (h : (blueprint.build bit).run.run catalog = (.ok layout, last)) :
    last.Accounts layout.fieldNodes (blueprint.standing dialect bit) := by
  induction blueprint using induction_members generalizing bit layout catalog last with
  | format text => exact Build.accounts_format hc h
  | finished own => exact Build.accounts_place hc h
  | array count element ih =>
    obtain ⟨single, later, hbuild, h⟩ := Build.run_bind_eq_ok_iff.mp h
    obtain ⟨⟨handle, harray⟩, hgrows⟩ := Build.run_share h
    obtain ⟨-, -, rfl⟩ := Layout.arrayOf_eq_ok_iff.mp harray
    exact (ih hc hd hbuild).mono hgrows
  | sequence members ih =>
    obtain ⟨layouts, later, hbuild, h⟩ := Build.run_bind_eq_ok_iff.mp h
    exact Build.accounts_group (buildMembers_accounts ih hc hd hbuild) h
  | record members ih =>
    obtain ⟨layouts, later, hbuild, h⟩ := run_record h
    rw [standing, standingInNamedMembers_eq]
    exact Build.accounts_group (buildMembers_accounts ih hc hd hbuild) h

end Blueprint

namespace Catalog

/-- A catalog with an honest history holds all fields of the layout that it gives for a blueprint
exactly if it holds those that stand as they were given. Fields of format strings are always held,
and so are the bit fields made for the places of finished ones. -/
theorem Reachable.holds_fields_iff {catalog last : Catalog} (hc : catalog.Reachable)
    {blueprint : Blueprint} {layout : Layout}
    (h : blueprint.pack.run.run catalog = (.ok layout, last)) :
    (∀ node ∈ layout.fieldNodes, last.Holds node) ↔
      ∀ node ∈ blueprint.standing catalog.dialect 0, last.Holds node :=
  (blueprint.build_accounts hc.honest rfl h).forall_holds_iff

/-- A bit field, one that does not fit behind it, and bytes, the latter two from elsewhere. -/
def foreignParts : Blueprint :=
  .sequence [.format "R3", .finished (.atom ⟨9, 9⟩ (.bits 5 77)),
    .finished (.atom ⟨9, 8⟩ (.raw 2))]

theorem holds_fields_iff_foreignParts :
    (∀ node ∈ [Layout.atom ⟨0, 0⟩ (.bits 3 0), .atom ⟨0, 1⟩ (.bits 5 3), .atom ⟨9, 8⟩ (.raw 2)],
      (foreignParts.pack.run.run (.empty 0 .big)).2.Holds node) ↔
      ∀ node ∈ [Layout.atom ⟨9, 8⟩ (.raw 2)],
        (foreignParts.pack.run.run (.empty 0 .big)).2.Holds node := by
  have hcatalog : (empty 0 .big).Reachable := ⟨0, .big, [], by simp, rfl⟩
  have hpack : (foreignParts.pack.run.run (.empty 0 .big)).1 = .ok (.group ⟨0, 2⟩ .positional
      [.atom ⟨0, 0⟩ (.bits 3 0), .atom ⟨0, 1⟩ (.bits 5 3), .atom ⟨9, 8⟩ (.raw 2)]
      [0, 3, 8] 24) := by
    decide +kernel
  have hstanding : foreignParts.standing (empty 0 .big).dialect 0 = [.atom ⟨9, 8⟩ (.raw 2)] := by
    decide +kernel
  have hiff := hcatalog.holds_fields_iff (Prod.ext hpack rfl)
  rw [hstanding] at hiff
  exact hiff

/-- Not all fields are held, even if the finished layouts are single fields: a catalog without
entries gives a byte from elsewhere as it is, and has no entries then. -/
theorem not_forall_holds_fields :
    ¬ ∀ (catalog last : Catalog) (blueprint : Blueprint) (layout : Layout), catalog.Reachable →
      (∀ finished ∈ blueprint.finishedIn, finished.isAtomic = true) →
        blueprint.pack.run.run catalog = (.ok layout, last) →
          ∀ node ∈ layout.fieldNodes, last.Holds node := by
  intro h
  have hbyte := h (empty 0 .big) (empty 0 .big)
    (.finished (.atom ⟨7, 0⟩ (.integer .unsigned 1 .little)))
    (.atom ⟨7, 0⟩ (.integer .unsigned 1 .little)) ⟨0, .big, [], by simp, rfl⟩ (by decide) rfl
  exact absurd hbyte (by decide)

end Catalog

end BinaryLayout
