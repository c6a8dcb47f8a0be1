import BinaryLayout.Proofs.Blueprint.Outline
import BinaryLayout.Proofs.Format.Flatten

/-!
# Plain blueprints and their format strings

A blueprint is **plain** when it consists of format strings, sequences and records. There are two
ways to find out where its fields lie. A build goes from composite to composite and lays out each by
itself, its members at offsets from its own start. The parser, on the other hand, reads the format
strings of the blueprint as one (`Format.flattened`) and keeps a single position from the start of
the whole.

The two agree. A blueprint **fits** what the parser reads when names are unique, every format string
has a field, and composites with fields that are not bit packed start on byte boundaries of the
whole (`Fits`). It can be built exactly if it fits (`Plain.faithful`), and the layout then consists
of the fields that the parser reads, each where the parser has its position.
-/

namespace BinaryLayout.Blueprint

open Format (Lines flattened letterCount lettersIn)
open Layout (ConsistOf ConsistsOf)

/-- The blueprint consists of format strings, sequences and records. -/
inductive Plain : Blueprint → Prop
  | format (text : String) : Plain (.format text)
  | sequence {members : List Blueprint} (h : ∀ member ∈ members, Plain member) :
      Plain (.sequence members)
  | record {members : List (String × Blueprint)} (h : ∀ member ∈ members, Plain member.2) :
      Plain (.record members)

mutual

/-- The format strings in a blueprint, from left to right. -/
def texts : Blueprint → List String
  | .format text => [text]
  | .finished _ => []
  | .array _ element => element.texts
  | .sequence members => textsOf members
  | .record members => textsOfNamed members

/-- The format strings in some blueprints. -/
def textsOf : List Blueprint → List String
  | [] => []
  | blueprint :: blueprints => blueprint.texts ++ textsOf blueprints

/-- The format strings in some named blueprints. -/
def textsOfNamed : List (String × Blueprint) → List String
  | [] => []
  | (_, blueprint) :: blueprints => blueprint.texts ++ textsOfNamed blueprints

end

/-- No record in the blueprint has two members of one name. -/
inductive NamesUnique : Blueprint → Prop
  | format (text : String) : NamesUnique (.format text)
  | finished (layout : Layout) : NamesUnique (.finished layout)
  | array {count : Nat} {element : Blueprint} (h : NamesUnique element) :
      NamesUnique (.array count element)
  | sequence {members : List Blueprint} (h : ∀ member ∈ members, NamesUnique member) :
      NamesUnique (.sequence members)
  | record {members : List (String × Blueprint)} (hn : (members.map Prod.fst).Nodup)
      (h : ∀ member ∈ members, NamesUnique member.2) : NamesUnique (.record members)

/-- Unless all fields are bit packed, they start on a byte boundary. -/
def StartsAligned (start : Nat) (fields : List Field) : Prop :=
  (∃ field ∈ fields, field.isBitPacked = false) → start % 8 = 0

mutual

/-- Every composite in a plain blueprint starts on a byte boundary, unless all its fields are bit
packed. The fields are those of the blueprint, which starts at bit `start` of the whole; each format
string has as many of them as it has letters, and is a composite if it has several. -/
def CompositesAligned (dialect : Dialect) : Blueprint → Nat → List Field → Prop
  | .format _, start, fields => 1 < fields.length → StartsAligned start fields
  | .finished _, _, _ => True
  | .array _ _, _, _ => True
  | .sequence members, start, fields =>
    StartsAligned start fields ∧ MembersAligned dialect members start fields
  | .record members, start, fields =>
    StartsAligned start fields ∧ NamedMembersAligned dialect members start fields

/-- The composites in members one after the other are aligned. -/
def MembersAligned (dialect : Dialect) : List Blueprint → Nat → List Field → Prop
  | [], _, _ => True
  | member :: members, start, fields =>
    let own := fields.take (lettersIn dialect member.texts)
    member.CompositesAligned dialect start own ∧
      MembersAligned dialect members (start + Field.totalBits own)
        (fields.drop (lettersIn dialect member.texts))

/-- The composites in named members one after the other are aligned. -/
def NamedMembersAligned (dialect : Dialect) : List (String × Blueprint) → Nat → List Field → Prop
  | [], _, _ => True
  | (_, member) :: members, start, fields =>
    let own := fields.take (lettersIn dialect member.texts)
    member.CompositesAligned dialect start own ∧
      NamedMembersAligned dialect members (start + Field.totalBits own)
        (fields.drop (lettersIn dialect member.texts))

end

variable {dialect : Dialect} {start finish : Nat} {fields : List Field}

/-! ### Names do not matter to places -/

theorem textsOfNamed_eq (members : List (String × Blueprint)) :
    textsOfNamed members = textsOf (members.map Prod.snd) := by
  induction members with
  | nil => rfl
  | cons member members ih => rw [textsOfNamed, ih, List.map_cons, textsOf]

private theorem namedMembersAligned_iff {members : List (String × Blueprint)} :
    NamedMembersAligned dialect members start fields ↔
      MembersAligned dialect (members.map Prod.snd) start fields := by
  induction members generalizing start fields with
  | nil => exact Iff.rfl
  | cons member members ih => rw [NamedMembersAligned, ih, List.map_cons, MembersAligned]

/-! ### Blueprints that fit what is read -/

/-- From bit `start` of the whole on, the format strings of the blueprint are read as the fields,
and nothing in the blueprint stands against its being built. -/
structure Fits (dialect : Dialect) (blueprint : Blueprint) (start : Nat) (fields : List Field)
    (finish : Nat) : Prop where
  lines : Lines dialect blueprint.texts start fields finish
  names : blueprint.NamesUnique
  letters : ∀ text ∈ blueprint.texts, 0 < letterCount dialect text.toList
  aligned : blueprint.CompositesAligned dialect start fields

/-- Members fit one after the other. -/
inductive FitAll (dialect : Dialect) : List Blueprint → Nat → List Field → Nat → Prop
  | nil {start : Nat} : FitAll dialect [] start [] start
  | cons {member : Blueprint} {members : List Blueprint} {start middle finish : Nat}
      {before after : List Field} (h : member.Fits dialect start before middle)
      (hs : FitAll dialect members middle after finish) :
      FitAll dialect (member :: members) start (before ++ after) finish

/-- Members fit exactly if nothing stands against any of them. -/
theorem fitAll_iff {members : List Blueprint} :
    FitAll dialect members start fields finish ↔
      Lines dialect (textsOf members) start fields finish ∧
        (∀ member ∈ members, member.NamesUnique) ∧
        (∀ text ∈ textsOf members, 0 < letterCount dialect text.toList) ∧
        MembersAligned dialect members start fields := by
  induction members generalizing start fields with
  | nil =>
    constructor
    · rintro ⟨⟩
      exact ⟨Format.lines_nil_iff.mpr ⟨rfl, rfl⟩, by simp, by simp [textsOf], trivial⟩
    · rintro ⟨hl, -⟩
      obtain ⟨rfl, rfl⟩ := Format.lines_nil_iff.mp hl
      exact .nil
  | cons member members ih =>
    simp only [textsOf, List.forall_mem_cons, List.forall_mem_append]
    constructor
    · rintro (_ | ⟨h, hs⟩)
      obtain ⟨hlines, hnames, hletters, haligned⟩ := ih.mp hs
      refine ⟨Format.lines_append_iff.mpr ⟨_, _, _, h.lines, hlines, rfl⟩, ⟨h.names, hnames⟩,
        ⟨h.letters, hletters⟩, ?_⟩
      -- the fields of the first member are as many as its letters
      rw [MembersAligned, ← h.lines.length, List.take_left, List.drop_left, ← h.lines.finish_eq]
      exact ⟨h.aligned, haligned⟩
    · rintro ⟨hlines, ⟨hname, hnames⟩, ⟨hletter, hletters⟩, haligned⟩
      obtain ⟨middle, before, after, hbefore, hafter, rfl⟩ := Format.lines_append_iff.mp hlines
      rw [MembersAligned, ← hbefore.length, List.take_left, List.drop_left,
        ← hbefore.finish_eq] at haligned
      exact .cons ⟨hbefore, hname, hletter, haligned.1⟩
        (ih.mpr ⟨hafter, hnames, hletters, haligned.2⟩)

theorem fits_sequence_iff {members : List Blueprint} :
    (sequence members).Fits dialect start fields finish ↔
      StartsAligned start fields ∧ FitAll dialect members start fields finish := by
  rw [fitAll_iff]
  constructor
  · rintro ⟨hl, hn, ht, hs, ha⟩
    cases hn with
    | sequence hn => exact ⟨hs, hl, hn, ht, ha⟩
  · rintro ⟨hs, hl, hn, ht, ha⟩
    exact ⟨hl, .sequence hn, ht, hs, ha⟩

theorem fits_record_iff {members : List (String × Blueprint)} :
    (record members).Fits dialect start fields finish ↔ (members.map Prod.fst).Nodup ∧
      StartsAligned start fields ∧
        FitAll dialect (members.map Prod.snd) start fields finish := by
  rw [fitAll_iff, ← textsOfNamed_eq, ← namedMembersAligned_iff, List.forall_mem_map]
  constructor
  · rintro ⟨hl, hn, ht, hs, ha⟩
    cases hn with
    | record hnames hn => exact ⟨hnames, hs, hl, hn, ht, ha⟩
  · rintro ⟨hnames, hs, hl, hn, ht, ha⟩
    exact ⟨hl, .record hnames hn, ht, hs, ha⟩

theorem fits_format_iff {text : String} :
    (format text).Fits dialect start fields finish ↔
      Lines dialect [text] start fields finish ∧ 0 < letterCount dialect text.toList ∧
        (1 < fields.length → StartsAligned start fields) := by
  constructor
  · rintro ⟨hl, -, ht, ha⟩
    exact ⟨hl, ht text (by simp [texts]), ha⟩
  · rintro ⟨hl, ht, ha⟩
    exact ⟨hl, .format text, by simpa [texts] using ht, ha⟩

/-- A blueprint that fits starts on a byte boundary, unless all its fields are bit packed. -/
private theorem Fits.startsAligned {blueprint : Blueprint} (hp : blueprint.Plain)
    (h : blueprint.Fits dialect start fields finish) : StartsAligned start fields := by
  cases hp with
  | format text =>
    obtain ⟨hl, -, ha⟩ := fits_format_iff.mp h
    match fields, hl.aligned, ha with
    | [], _, _ => simp [StartsAligned]
    | [field], haligned, _ =>
      rintro ⟨other, hmem, hpacked⟩
      obtain rfl := List.mem_singleton.mp hmem
      exact haligned.1 hpacked
    | _ :: _ :: _, _, ha => exact ha (by simp)
  | sequence _ => exact (fits_sequence_iff.mp h).1
  | record _ => exact (fits_record_iff.mp h).2.1

/-! ### Building what fits -/

/-- The blueprint is built from any bit on exactly if it fits, and gives the fields that are
read. -/
def Faithful (dialect : Dialect) (blueprint : Blueprint) : Prop :=
  ∀ start ≤ Extent.limit,
    (∀ layout, blueprint.outline dialect start = .ok layout →
      ∃ fields finish, blueprint.Fits dialect start fields finish ∧ layout.ConsistsOf fields) ∧
    ∀ fields finish, blueprint.Fits dialect start fields finish →
      ∃ layout, blueprint.outline dialect start = .ok layout

/-- Members that can be built one after the other fit, and are aligned where they come to lie. -/
private theorem fitAll_of_outlineMembers {members : List Blueprint}
    (hm : ∀ member ∈ members, member.Plain ∧ member.Faithful dialect)
    (hstart : start ≤ Extent.limit) {layouts : List Layout}
    (h : outlineMembers dialect members start = .ok layouts) :
    ∃ fields finish, FitAll dialect members start fields finish ∧ ConsistOf layouts fields ∧
      Layout.Aligned start layouts ∧ start + Layout.totalBits layouts ≤ Extent.limit := by
  induction members generalizing start layouts with
  | nil =>
    obtain rfl := Except.ok.inj h
    exact ⟨[], start, .nil, .nil, trivial, hstart⟩
  | cons member members ih =>
    obtain ⟨layout, hlayout, h⟩ := Outcome.bind_eq_ok_iff.mp h
    obtain ⟨next, hnext, h⟩ := Outcome.bind_eq_ok_iff.mp h
    obtain ⟨layouts, hlayouts, h⟩ := Outcome.bind_eq_ok_iff.mp h
    obtain rfl := Except.ok.inj h
    obtain ⟨rfl, hle⟩ := Format.advance_eq_ok_iff.mp hnext
    obtain ⟨hplain, hfaithful⟩ := hm member (by simp)
    obtain ⟨before, middle, hfits, hconsists⟩ := (hfaithful start hstart).1 layout hlayout
    obtain ⟨after, finish, hall, hconsist, haligned, hlimit⟩ :=
      ih (fun other hmem => hm other (List.mem_cons_of_mem _ hmem)) hle hlayouts
    obtain rfl : middle = start + layout.bitSize := by
      rw [hfits.lines.finish_eq, hconsists.bitSize]
    refine ⟨_, finish, .cons hfits hall, .cons hconsists hconsist, ⟨fun hp => ?_, haligned⟩, ?_⟩
    · -- a layout that is not bit packed has a field that is not
      refine hfits.startsAligned hplain (Classical.byContradiction fun hnone => ?_)
      simp only [not_exists, not_and, Bool.not_eq_false] at hnone
      rw [hconsists.packed.mpr hnone] at hp
      cases hp
    · rw [Layout.totalBits_cons]
      omega

/-- Members that fit can be built one after the other. -/
private theorem FitAll.exists_outlineMembers {members : List Blueprint}
    (hm : ∀ member ∈ members, member.Faithful dialect) (hstart : start ≤ Extent.limit)
    (h : FitAll dialect members start fields finish) :
    ∃ layouts, outlineMembers dialect members start = .ok layouts := by
  induction h with
  | nil => exact ⟨[], rfl⟩
  | @cons member members start middle finish before after h hs ih =>
    have hfaithful := hm member (by simp) start hstart
    obtain ⟨layout, hlayout⟩ := hfaithful.2 before middle h
    obtain ⟨before', middle', h', hconsists⟩ := hfaithful.1 layout hlayout
    obtain ⟨rfl, rfl⟩ := h.lines.unique h'.lines
    -- the next member is built from where reading has come to
    have hmiddle : start + layout.bitSize = middle := by
      rw [hconsists.bitSize, h.lines.finish_eq]
    have hle := h.lines.finish_le hstart
    obtain ⟨layouts, hlayouts⟩ := ih (fun other hmem => hm other (List.mem_cons_of_mem _ hmem)) hle
    have hnext : advance start layout.bitSize = .ok middle :=
      Format.advance_eq_ok_iff.mpr ⟨hmiddle, hle⟩
    refine ⟨layout :: layouts, ?_⟩
    rw [outlineMembers, hlayout]
    change (advance start layout.bitSize >>= _) = _
    rw [hnext]
    change (outlineMembers dialect members middle >>= _) = _
    rw [hlayouts]
    rfl

/-- Layouts that consist of fields are bit packed together exactly if the fields are. -/
private theorem startsAligned_iff {layouts : List Layout} (h : ConsistOf layouts fields) :
    StartsAligned start fields ↔
      ((∃ layout ∈ layouts, layout.isBitPacked = false) → start % 8 = 0) := by
  have hpacked := not_congr h.packed
  simp only [not_forall, Bool.not_eq_true, exists_prop] at hpacked
  rw [StartsAligned, hpacked]

/-- A group whose members are faithful. -/
private theorem faithful_group {members : List Blueprint}
    (hm : ∀ member ∈ members, member.Plain ∧ member.Faithful dialect) (labels : Labels)
    (hstart : start ≤ Extent.limit) :
    (∀ layouts layout, outlineMembers dialect members start = .ok layouts →
      Layout.groupOf .blank labels layouts = .ok layout →
        ∃ fields finish, (StartsAligned start fields ∧ FitAll dialect members start fields finish) ∧
          layout.ConsistsOf fields) ∧
    ∀ fields finish, StartsAligned start fields ∧ FitAll dialect members start fields finish →
      ∃ layouts layout, outlineMembers dialect members start = .ok layouts ∧
        Layout.groupOf .blank labels layouts = .ok layout := by
  constructor
  · intro layouts layout hlayouts hlayout
    obtain ⟨fields, finish, hall, hconsist, haligned, hlimit⟩ :=
      fitAll_of_outlineMembers hm hstart hlayouts
    have hstarts := (Layout.exists_groupOf_iff haligned hlimit .blank labels).mp ⟨layout, hlayout⟩
    refine ⟨fields, finish, ⟨(startsAligned_iff hconsist).mpr hstarts, hall⟩, ?_⟩
    obtain ⟨-, -, rfl⟩ := Layout.groupOf_eq_ok_iff.mp hlayout
    exact Layout.consistsOf_group hconsist .blank labels
  · rintro fields finish ⟨hstarts, hall⟩
    obtain ⟨layouts, hlayouts⟩ :=
      hall.exists_outlineMembers (fun member hmem => (hm member hmem).2) hstart
    obtain ⟨fields', finish', hall', hconsist, haligned, hlimit⟩ :=
      fitAll_of_outlineMembers hm hstart hlayouts
    obtain ⟨rfl, rfl⟩ := (fitAll_iff.mp hall).1.unique (fitAll_iff.mp hall').1
    obtain ⟨layout, hlayout⟩ := (Layout.exists_groupOf_iff haligned hlimit .blank labels).mpr
      ((startsAligned_iff hconsist).mp hstarts)
    exact ⟨layouts, layout, hlayouts, hlayout⟩

private theorem faithful_sequence {members : List Blueprint}
    (hm : ∀ member ∈ members, member.Plain ∧ member.Faithful dialect) :
    (sequence members).Faithful dialect := by
  intro start hstart
  obtain ⟨hfits, hbuilt⟩ := faithful_group hm .positional hstart
  simp only [fits_sequence_iff, outline, Outcome.bind_eq_ok_iff, Layout.sequenceOf]
  constructor
  · rintro layout ⟨layouts, hlayouts, hlayout⟩
    exact hfits layouts layout hlayouts hlayout
  · intro fields finish h
    obtain ⟨layouts, layout, hlayouts, hlayout⟩ := hbuilt fields finish h
    exact ⟨layout, layouts, hlayouts, hlayout⟩

private theorem faithful_record {members : List (String × Blueprint)}
    (hm : ∀ member ∈ members, member.2.Plain ∧ member.2.Faithful dialect) :
    (record members).Faithful dialect := by
  intro start hstart
  have hm' : ∀ member ∈ members.map Prod.snd, member.Plain ∧ member.Faithful dialect :=
    List.forall_mem_map.mpr hm
  obtain ⟨hfits, hbuilt⟩ := faithful_group hm' (.named (members.map Prod.fst)) hstart
  simp only [fits_record_iff, outline_record_eq_ok_iff]
  constructor
  · rintro layout ⟨hn, layouts, hlayouts, hlayout⟩
    obtain ⟨fields, finish, h, hconsists⟩ := hfits layouts layout hlayouts hlayout
    exact ⟨fields, finish, ⟨hn, h⟩, hconsists⟩
  · rintro fields finish ⟨hn, h⟩
    obtain ⟨layouts, layout, hlayouts, hlayout⟩ := hbuilt fields finish h
    exact ⟨layout, hn, layouts, hlayouts, hlayout⟩

/-- The fields of a format string, one or several of them. -/
private theorem exists_outlineFields_iff (hne : fields ≠ [])
    (ha : Layout.Aligned start (fields.map (.atom .blank)))
    (hl : start + Field.totalBits fields ≤ Extent.limit) :
    ((∃ layout, outlineFields fields = .ok layout) ↔
      (1 < fields.length → StartsAligned start fields)) ∧
      ∀ layout, outlineFields fields = .ok layout → layout.ConsistsOf fields := by
  have hconsist := Layout.consistOf_atoms fields
  rw [← hconsist.totalBits] at hl
  match fields with
  | [field] =>
    have hvacuous : 1 < [field].length → StartsAligned start [field] := by
      intro h
      exact absurd h (by simp)
    refine ⟨⟨fun _ => hvacuous, fun _ => ⟨_, rfl⟩⟩, ?_⟩
    intro layout h
    obtain rfl := Except.ok.inj h
    exact Layout.consistsOf_atom .blank field
  | first :: second :: fields =>
    have hgroup := Layout.exists_groupOf_iff ha hl .blank .positional
    constructor
    · rw [startsAligned_iff hconsist, ← hgroup]
      exact ⟨fun h _ => h, fun h => h (by simp)⟩
    · intro layout h
      obtain ⟨-, -, rfl⟩ := Layout.groupOf_eq_ok_iff.mp h
      exact Layout.consistsOf_group hconsist .blank .positional

private theorem faithful_format (text : String) : (format text).Faithful dialect := by
  intro start hstart
  have hfields {fields : List Field} {finish : Nat} (hl : Lines dialect [text] start fields finish)
      (ht : 0 < letterCount dialect text.toList) := exists_outlineFields_iff
    (List.ne_nil_of_length_pos (by rw [hl.length]; simpa [lettersIn] using ht)) hl.aligned
    (hl.finish_eq ▸ hl.finish_le hstart)
  simp only [fits_format_iff, outline, Outcome.bind_eq_ok_iff, Format.parse_text_iff]
  constructor
  · rintro layout ⟨parsed, ⟨ht, hl⟩, h⟩
    obtain ⟨hiff, hconsists⟩ := hfields hl ht
    exact ⟨parsed.fields, parsed.bit, ⟨hl, ht, hiff.mp ⟨layout, h⟩⟩, hconsists layout h⟩
  · rintro fields finish ⟨hl, ht, ha⟩
    obtain ⟨layout, h⟩ := (hfields hl ht).1.mpr ha
    exact ⟨layout, ⟨fields, finish⟩, ⟨ht, hl⟩, h⟩

/-- Plain blueprints are built exactly if they fit what is read, and give the fields read. -/
theorem Plain.faithful {blueprint : Blueprint} (h : blueprint.Plain) :
    blueprint.Faithful dialect := by
  induction h with
  | format text => exact faithful_format text
  | sequence h ih => exact faithful_sequence fun member hmem => ⟨h member hmem, ih member hmem⟩
  | record h ih => exact faithful_record fun member hmem => ⟨h member hmem, ih member hmem⟩

/-! ### Plain blueprints in catalogs -/

/-- In a catalog with an honest history, a plain blueprint with a format string can be built exactly
if its names are unique, every format string has a letter, the format strings can be parsed as one,
and its composites are aligned. Its leaves are then the parsed fields, each at the end of those
before it, which is where the parser stood when it read the field, and it ends where the parser
does. -/
theorem pack_iff_parse {catalog : Catalog} {blueprint : Blueprint} (hc : catalog.Reachable)
    (hp : blueprint.Plain) (ht : blueprint.texts ≠ []) :
    ((∃ layout, (blueprint.pack.run.run catalog).1 = .ok layout) ↔
      blueprint.NamesUnique ∧
        (∀ text ∈ blueprint.texts, 0 < letterCount catalog.dialect text.toList) ∧
        ∃ parsed, Format.parse catalog.dialect (flattened catalog.dialect blueprint.texts) 0 =
            .ok parsed ∧
          blueprint.CompositesAligned catalog.dialect 0 parsed.fields) ∧
    ∀ layout parsed, (blueprint.pack.run.run catalog).1 = .ok layout →
      Format.parse catalog.dialect (flattened catalog.dialect blueprint.texts) 0 = .ok parsed →
        layout.leaves 0 = Field.placed 0 parsed.fields ∧
          layout.leaves 0 = Format.readAt 0 (Format.run catalog.dialect
            (flattened catalog.dialect blueprint.texts).toList 0
            ⟨catalog.dialect.order, 0⟩).steps ∧
          layout.bitSize = parsed.bit := by
  have hagree := hc.pack_agree blueprint
  have hfaithful : blueprint.Faithful catalog.dialect := hp.faithful
  obtain ⟨hbuilt, hfits⟩ := hfaithful 0 (Nat.zero_le _)
  have hletter (h : ∀ text ∈ blueprint.texts, 0 < letterCount catalog.dialect text.toList) :
      0 < lettersIn catalog.dialect blueprint.texts := by
    obtain ⟨text, texts, htexts⟩ := List.exists_cons_of_ne_nil ht
    have hfirst := h text (by simp [htexts])
    rw [htexts, lettersIn, List.map_cons, List.sum_cons]
    omega
  refine ⟨⟨?_, ?_⟩, ?_⟩
  · rintro ⟨layout, hlayout⟩
    obtain ⟨outline, houtline, -⟩ := hagree.exists_ok hlayout
    obtain ⟨fields, finish, h, -⟩ := hbuilt outline houtline
    exact ⟨h.names, h.letters, ⟨fields, finish⟩,
      Format.parse_flattened_iff.mpr ⟨hletter h.letters, h.lines⟩, h.aligned⟩
  · rintro ⟨hnames, hletters, parsed, hparse, haligned⟩
    have hlines := (Format.parse_flattened_iff.mp hparse).2
    obtain ⟨outline, houtline⟩ := hfits _ _ ⟨hlines, hnames, hletters, haligned⟩
    obtain ⟨layout, hlayout, -⟩ := hagree.exists_ok' houtline
    exact ⟨layout, hlayout⟩
  · rintro layout parsed hlayout hparse
    obtain ⟨outline, houtline, rfl⟩ := hagree.exists_ok hlayout
    obtain ⟨fields, finish, h, hconsists⟩ := hbuilt _ houtline
    obtain ⟨rfl, rfl⟩ := h.lines.unique (Format.parse_flattened_iff.mp hparse).2
    have hleaves : layout.leaves 0 = Field.placed 0 parsed.fields := by
      rw [← Layout.leaves_anonymous, hconsists.leaves]
    refine ⟨hleaves, hleaves.trans (Format.readAt_parse hparse).symm, ?_⟩
    rw [← Layout.bitSize_anonymous, hconsists.bitSize, h.lines.finish_eq, Nat.zero_add]

/-- A header: a version, a flag and a counter that share a byte, and a length. -/
def header : Blueprint :=
  .record [("version", .format "B"), ("state", .sequence [.format "r", .format "R7"]),
    ("length", .format "<I2")]

private theorem plain_header : header.Plain := by
  refine .record ?_
  simp only [List.forall_mem_cons, List.not_mem_nil, false_imp_iff, implies_true, and_true]
  refine ⟨.format _, .sequence ?_, .format _⟩
  simp [Plain.format]

theorem pack_iff_parse_header :
    ∃ layout, (header.pack.run.run (.empty 0 .big)).1 = .ok layout ∧
      layout.leaves 0 = [(.integer .unsigned 1 .big, 0), (.bits 1 0, 8), (.bits 7 1, 9),
        (.integer .unsigned 2 .little, 16)] ∧
      layout.bitSize = 32 := by
  have hcatalog : (Catalog.empty 0 .big).Reachable := ⟨0, .big, [], by simp, rfl⟩
  have hparse : Format.parse .big (flattened .big header.texts) 0 =
      .ok ⟨[.integer .unsigned 1 .big, .bits 1 0, .bits 7 1, .integer .unsigned 2 .little],
        32⟩ := by
    decide +kernel
  have hnames : header.NamesUnique := by
    refine .record (by decide) ?_
    simp only [List.forall_mem_cons, List.not_mem_nil, false_imp_iff, implies_true, and_true]
    refine ⟨.format _, .sequence ?_, .format _⟩
    simp [NamesUnique.format]
  have haligned : header.CompositesAligned .big 0
      [.integer .unsigned 1 .big, .bits 1 0, .bits 7 1, .integer .unsigned 2 .little] := by
    simp [header, CompositesAligned, NamedMembersAligned, MembersAligned, StartsAligned, texts,
      textsOf, lettersIn, letterCount, Dialect.letter?, Field.isBitPacked, Field.totalBits,
      Field.bitSize]
  obtain ⟨hiff, hplaces⟩ := pack_iff_parse hcatalog plain_header (by decide)
  obtain ⟨layout, hlayout⟩ := hiff.mpr ⟨hnames, by decide, _, hparse, haligned⟩
  obtain ⟨hleaves, -, hsize⟩ := hplaces layout _ hlayout hparse
  exact ⟨layout, hlayout, hleaves, hsize⟩

end BinaryLayout.Blueprint
