import BinaryLayout.Proofs.Blueprint.Outline
import BinaryLayout.Proofs.Format.Reads

/-!
# Layouts from catalogs are laid back to back

Layouts that come from catalogs with honest histories are laid back to back from valid fields
(`Layout.Issued.laid`). Outlines are laid from the fields of the finished layouts in their
blueprints and from valid ones (`Blueprint.outline_laid`), and handles do not matter
(`Layout.laid_anonymous_iff`).
-/

namespace BinaryLayout

namespace Blueprint

variable {property : Field → Prop}

private theorem outlineFields_laid {fields : List Field} (hf : ∀ field ∈ fields, property field)
    {layout : Layout} (h : outlineFields fields = .ok layout) : layout.Laid property := by
  have hatoms : ∀ layout ∈ fields.map (Layout.atom .blank), layout.Laid property := by
    simpa using fun field hmem => Layout.Laid.atom (hf field hmem)
  rw [outlineFields] at h
  generalize fields.map (Layout.atom .blank) = layouts at h hatoms
  split at h
  · obtain rfl := Except.ok.inj h
    exact hatoms _ (by simp)
  · exact .of_sequenceOf hatoms h

/-- A finished layout keeps its fields, or else it is a valid one that takes its place. -/
private theorem outlineFinished_laid (hv : ∀ field, field.Valid → property field)
    {finished : Layout} (hf : finished.Laid property) {bit : Nat} {layout : Layout}
    (h : outlineFinished finished bit = .ok layout) : layout.Laid property := by
  rw [outlineFinished] at h
  split at h
  · split at h
    · obtain rfl := Except.ok.inj h
      exact hf.anonymous
    · obtain ⟨hs, h⟩ := Outcome.check_eq_ok_iff.mp h
      obtain rfl := Except.ok.inj h
      have hvalid := @Format.valid_field .bits _ (Format.checkSize_eq_ok_iff.mp hs) .little bit
      exact .atom (hv _ hvalid)
  · obtain rfl := Except.ok.inj h
    exact hf.anonymous

/-- The outlines of members are laid if that of each of them is wherever it stands, provided that
the finished layouts in it are. -/
private theorem outlineMembers_laid {dialect : Dialect} {members : List Blueprint}
    (h : ∀ member ∈ members, ∀ {bit : Nat} {layout : Layout},
      (∀ finished ∈ member.finishedIn, finished.Laid property) →
        member.outline dialect bit = .ok layout → layout.Laid property)
    (hf : ∀ finished ∈ members.flatMap finishedIn, finished.Laid property) {bit : Nat}
    {layouts : List Layout} (hm : outlineMembers dialect members bit = .ok layouts) :
    ∀ layout ∈ layouts, layout.Laid property := by
  intro layout hmem
  obtain ⟨member, hmember, start, houtline⟩ := exists_of_mem_outlineMembers hm hmem
  exact h member hmember
    (fun finished hin => hf finished (List.mem_flatMap.mpr ⟨member, hmember, hin⟩)) houtline

/-- Outlines are laid back to back from fields with a property that all valid ones have, if the
finished layouts in them are. -/
theorem outline_laid {dialect : Dialect} (hv : ∀ field, field.Valid → property field)
    (blueprint : Blueprint) {bit : Nat} {layout : Layout}
    (hf : ∀ finished ∈ blueprint.finishedIn, finished.Laid property)
    (h : blueprint.outline dialect bit = .ok layout) : layout.Laid property := by
  induction blueprint using induction_members generalizing bit layout with
  | format text =>
    obtain ⟨parsed, hparse, h⟩ := Outcome.bind_eq_ok_iff.mp h
    obtain ⟨-, finish, hreads, -⟩ := Format.parse_eq_ok_iff.mp hparse
    exact outlineFields_laid (fun field hmem => hv field (hreads.valid field hmem)) h
  | finished own => exact outlineFinished_laid hv (hf own (List.mem_singleton_self own)) h
  | array count element ih =>
    obtain ⟨outline, houtline, h⟩ := Outcome.bind_eq_ok_iff.mp h
    exact (ih hf houtline).of_arrayOf h
  | sequence members ih =>
    rw [finishedIn, finishedInAll_eq] at hf
    obtain ⟨outlines, houtlines, h⟩ := Outcome.bind_eq_ok_iff.mp h
    exact .of_sequenceOf (outlineMembers_laid ih hf houtlines) h
  | record members ih =>
    rw [finishedIn, finishedInNamed_eq] at hf
    obtain ⟨hnames, outlines, houtlines, h⟩ := outline_record_eq_ok_iff.mp h
    have hfit : (Labels.named (members.map Prod.fst)).Fit outlines.length :=
      ⟨by simp [length_outlineMembers houtlines], hnames⟩
    exact .of_groupOf (outlineMembers_laid ih hf houtlines) hfit h

end Blueprint

/-- Layouts from catalogs with honest histories are laid back to back from valid fields. -/
theorem Layout.Issued.laid {layout : Layout} (h : layout.Issued) : layout.Laid Field.Valid := by
  induction h with
  | @field catalog shape size order bit layout hc h =>
    obtain ⟨houtcome, -⟩ := Build.field_refines shape size order bit catalog hc.honest rfl
    obtain ⟨outline, houtline, rfl⟩ := houtcome.exists_ok h
    obtain ⟨hs, houtline⟩ := Outcome.check_eq_ok_iff.mp houtline
    rw [← laid_anonymous_iff, ← Except.ok.inj houtline]
    exact .atom (Format.valid_field (Format.checkSize_eq_ok_iff.mp hs) order bit)
  | @pack catalog blueprint layout hc hb h ih =>
    obtain ⟨outline, houtline, rfl⟩ := (hc.pack_agree blueprint).exists_ok h
    exact laid_anonymous_iff.mp (blueprint.outline_laid (fun _ => id) ih houtline)

/-! ### A layout from a catalog -/

/-- A packet: its kind, a flag and a counter that share a byte, and two points. -/
def Blueprint.packet : Blueprint :=
  .record [("kind", .format "B"), ("state", .sequence [.format "r", .format "R7"]),
    ("points", .array 2 (.format "<i2"))]

/-- The first packet that a catalog gives whose byte order is big. -/
def Layout.packet : Layout :=
  .group ⟨0, 6⟩ (.named ["kind", "state", "points"])
    [.atom ⟨0, 0⟩ (.integer .unsigned 1 .big),
      .group ⟨0, 3⟩ .positional [.atom ⟨0, 1⟩ (.bits 1 0), .atom ⟨0, 2⟩ (.bits 7 1)] [0, 1] 8,
      .array ⟨0, 5⟩ (.atom ⟨0, 4⟩ (.integer .signed 2 .little)) 2 32]
    [0, 8, 16] 48

theorem Layout.issued_packet : Layout.packet.Issued := by
  have hcatalog : (Catalog.empty 0 .big).Reachable := ⟨0, .big, [], by simp, rfl⟩
  have hpack : (Blueprint.packet.pack.run.run (.empty 0 .big)).1 = .ok Layout.packet := by
    decide +kernel
  exact .pack hcatalog (by simp [Blueprint.packet, Blueprint.finishedIn,
    Blueprint.finishedInNamed, Blueprint.finishedInAll]) hpack

end BinaryLayout
