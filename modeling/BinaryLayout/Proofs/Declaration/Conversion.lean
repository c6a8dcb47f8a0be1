import BinaryLayout.Catalog.History
import BinaryLayout.Proofs.Outcome

/-!
# From declarations to blueprints

A declaration gives a blueprint exactly if each entry in it, at whatever depth, holds one name. If
some entry does not, the first one in the order of the document is reported, where an entry comes
before what it contains (`Declaration.toBlueprint_settles`); the catalog has not been consulted by
then.

`Blueprint.toDeclaration?` writes a blueprint down as a declaration, which is possible if there are
no finished layouts in it. It is the inverse of `Declaration.toBlueprint`
(`Declaration.toBlueprint_eq_ok_iff`), so that declarations whose entries are in order and
blueprints without finished layouts are the same data.
-/

namespace BinaryLayout

namespace Declaration

/-! ### Entries -/

/-- An entry of a record as it is looked at: its position among the entries of the record, and the
number of names that it holds. -/
structure Entry where
  /-- The position, counted from zero. -/
  position : Nat
  /-- The number of names. -/
  size : Nat
  deriving DecidableEq, Repr

mutual

/-- The entries of all records in a declaration, in the order of the document. -/
def entriesIn : Declaration → List Entry
  | .format _ => []
  | .array _ element => element.entriesIn
  | .sequence members => entriesInMembers members
  | .record entries => entriesInRecord entries 0

/-- The entries of the records in some declarations. -/
def entriesInMembers : List Declaration → List Entry
  | [] => []
  | member :: members => member.entriesIn ++ entriesInMembers members

/-- The entries of a record, the first of which stands at `position`, each of them followed by the
entries of the records in it. -/
def entriesInRecord : List (List (String × Declaration)) → Nat → List Entry
  | [], _ => []
  | entry :: entries, position =>
    ⟨position, entry.length⟩ :: (entriesInEntry entry ++ entriesInRecord entries (position + 1))

/-- The entries of the records in one entry. -/
def entriesInEntry : List (String × Declaration) → List Entry
  | [] => []
  | (_, member) :: members => member.entriesIn ++ entriesInEntry members

end

/-- The outcome reports the first of the entries that does not hold exactly one name, and there is a
result if all do. -/
def Settles {α : Type} (entries : List Entry) (outcome : Except BuildError α) : Prop :=
  match entries.find? (·.size ≠ 1) with
  | some bad => outcome = .error (.badEntry bad.position)
  | none => ∃ result, outcome = .ok result

section

variable {α β : Type} {entries others : List Entry} {outcome : Except BuildError α}

private theorem settles_ok (result : α) : Settles [] (.ok result : Except BuildError α) :=
  ⟨result, rfl⟩

/-- One step after another looks at further entries. -/
theorem Settles.bind {next : α → Except BuildError β} (h : Settles entries outcome)
    (hnext : ∀ result, Settles others (next result)) :
    Settles (entries ++ others) (outcome >>= next) := by
  rw [Settles] at h ⊢
  rw [List.find?_append]
  cases hfirst : entries.find? (·.size ≠ 1) with
  | some bad =>
    rw [hfirst] at h
    rw [h]
    rfl
  | none =>
    rw [hfirst] at h
    obtain ⟨result, rfl⟩ := h
    exact hnext result

/-- A step that cannot fail looks at no further entries. -/
theorem Settles.map {make : α → β} (h : Settles entries outcome) :
    Settles entries (outcome >>= fun result => .ok (make result)) := by
  simpa using h.bind fun result => settles_ok (make result)

theorem Settles.cons (h : Settles entries outcome) (position : Nat) :
    Settles (⟨position, 1⟩ :: entries) outcome := h

private theorem settles_bad {position size : Nat} (hsize : size ≠ 1) :
    Settles (⟨position, size⟩ :: entries)
      (.error (.badEntry position) : Except BuildError α) := by
  rw [Settles, List.find?_cons_of_pos (by simpa using hsize)]

/-- A failure is for the first entry that does not hold exactly one name. -/
theorem Settles.eq_error_iff (h : Settles entries outcome) {cause : BuildError} :
    outcome = .error cause ↔ ∃ before bad after, entries = before ++ bad :: after ∧
      (∀ entry ∈ before, entry.size = 1) ∧ bad.size ≠ 1 ∧ cause = .badEntry bad.position := by
  have hsplit (bad : Entry) : entries.find? (·.size ≠ 1) = some bad ↔ bad.size ≠ 1 ∧
      ∃ before after, entries = before ++ bad :: after ∧ ∀ entry ∈ before, entry.size = 1 := by
    simp [List.find?_eq_some_iff_append]
  have hfirst : outcome = .error cause ↔
      ∃ bad, entries.find? (·.size ≠ 1) = some bad ∧ cause = .badEntry bad.position := by
    rw [Settles] at h
    cases hfind : entries.find? (·.size ≠ 1) with
    | some bad =>
      rw [hfind] at h
      simp [h, eq_comm]
    | none =>
      rw [hfind] at h
      obtain ⟨result, rfl⟩ := h
      simp
  rw [hfirst]
  constructor
  · rintro ⟨bad, hfind, hcause⟩
    obtain ⟨hbad, before, after, hentries, hbefore⟩ := (hsplit bad).mp hfind
    exact ⟨before, bad, after, hentries, hbefore, hbad, hcause⟩
  · rintro ⟨before, bad, after, hentries, hbefore, hbad, hcause⟩
    exact ⟨bad, (hsplit bad).mpr ⟨hbad, before, after, hentries, hbefore⟩, hcause⟩

/-- There is a failure exactly if some entry does not hold exactly one name. -/
theorem Settles.exists_error_iff (h : Settles entries outcome) :
    (∃ cause, outcome = .error cause) ↔ ∃ entry ∈ entries, entry.size ≠ 1 := by
  rw [Settles] at h
  cases hfind : entries.find? (·.size ≠ 1) with
  | some bad =>
    rw [hfind] at h
    have hbad : bad.size ≠ 1 := by simpa using List.find?_some hfind
    exact iff_of_true ⟨_, h⟩ ⟨bad, List.mem_of_find?_eq_some hfind, hbad⟩
  | none =>
    rw [hfind] at h
    obtain ⟨result, rfl⟩ := h
    have hall : ∀ entry ∈ entries, entry.size = 1 := by simpa using hfind
    refine iff_of_false nofun ?_
    rintro ⟨entry, hmem, hentry⟩
    exact hentry (hall entry hmem)

end

mutual

/-- Converting a declaration looks at the entries in it, in the order of the document. -/
theorem toBlueprint_settles : ∀ declaration : Declaration,
    Settles declaration.entriesIn declaration.toBlueprint
  | .format _ => settles_ok _
  | .array _ element => (toBlueprint_settles element).map
  | .sequence members => (membersToBlueprints_settles members).map
  | .record entries => (entriesToBlueprints_settles entries 0).map

private theorem membersToBlueprints_settles : ∀ members : List Declaration,
    Settles (entriesInMembers members) (membersToBlueprints members)
  | [] => settles_ok _
  | member :: members =>
    (toBlueprint_settles member).bind fun _ => (membersToBlueprints_settles members).map

private theorem entriesToBlueprints_settles : ∀ (entries : List (List (String × Declaration)))
    (position : Nat), Settles (entriesInRecord entries position)
      (entriesToBlueprints entries position)
  | [], _ => settles_ok _
  | entry :: entries, position => by
    have hrest := entriesToBlueprints_settles entries (position + 1)
    match entry with
    | [(name, member)] =>
      rw [entriesInRecord, entriesInEntry, entriesInEntry, List.append_nil]
      have hmember : Settles member.entriesIn (entryToBlueprint [(name, member)] position) :=
        (toBlueprint_settles member).map
      exact (hmember.bind fun _ => hrest.map).cons position
    | [] => exact settles_bad (by simp)
    | _ :: _ :: _ => exact settles_bad (by simp)

end

end Declaration

/-! ### Blueprints as declarations -/

namespace Blueprint

mutual

/-- The declaration of a blueprint, which has none if there is a finished layout in it. -/
def toDeclaration? : Blueprint → Option Declaration
  | .format text => some (.format text)
  | .finished _ => none
  | .array count element => element.toDeclaration?.map (.array count)
  | .sequence members => (membersToDeclarations? members).map .sequence
  | .record members => (membersToEntries? members).map .record

/-- The declarations of members. -/
def membersToDeclarations? : List Blueprint → Option (List Declaration)
  | [] => some []
  | member :: members => member.toDeclaration?.bind fun declaration =>
    (membersToDeclarations? members).map (declaration :: ·)

/-- The entries of named members, one name in each. -/
def membersToEntries? : List (String × Blueprint) → Option (List (List (String × Declaration)))
  | [] => some []
  | (name, member) :: members => member.toDeclaration?.bind fun declaration =>
    (membersToEntries? members).map ([(name, declaration)] :: ·)

end

/-- Members have declarations if each of them has one. -/
private theorem isSome_membersToDeclarations?_iff {members : List Blueprint} :
    (membersToDeclarations? members).isSome ↔
      ∀ member ∈ members, member.toDeclaration?.isSome := by
  induction members with
  | nil => simp [membersToDeclarations?]
  | cons member members ih =>
    rw [List.forall_mem_cons, ← ih, membersToDeclarations?]
    cases member.toDeclaration? <;> simp

/-- Entries are the declarations of the members, each with its name. -/
private theorem isSome_membersToEntries? (members : List (String × Blueprint)) :
    (membersToEntries? members).isSome =
      (membersToDeclarations? (members.map Prod.snd)).isSome := by
  induction members with
  | nil => rfl
  | cons member members ih =>
    rw [membersToEntries?, List.map_cons, membersToDeclarations?]
    cases member.2.toDeclaration? <;> simp [ih]

/-- Blueprints have declarations if there are no finished layouts in them. -/
theorem isSome_toDeclaration?_iff (blueprint : Blueprint) :
    blueprint.toDeclaration?.isSome ↔ blueprint.finishedIn = [] := by
  induction blueprint using induction_members with
  | format | finished => simp [toDeclaration?, finishedIn]
  | array count element ih => simp [toDeclaration?, finishedIn, ← ih]
  | sequence members ih =>
    rw [finishedIn, finishedInAll_eq, List.flatMap_eq_nil_iff, toDeclaration?, Option.isSome_map,
      isSome_membersToDeclarations?_iff]
    exact forall₂_congr ih
  | record members ih =>
    rw [finishedIn, finishedInNamed_eq, List.flatMap_eq_nil_iff, toDeclaration?, Option.isSome_map,
      isSome_membersToEntries?, isSome_membersToDeclarations?_iff]
    exact forall₂_congr ih

mutual

/-- A blueprint is got back from its declaration. -/
private theorem toBlueprint_of_toDeclaration? : ∀ (blueprint : Blueprint)
    {declaration : Declaration}, blueprint.toDeclaration? = some declaration →
      declaration.toBlueprint = .ok blueprint
  | .format text, declaration, h => by
    obtain rfl := Option.some.inj h
    rfl
  | .array count element, declaration, h => by
    obtain ⟨element', helement, rfl⟩ := Option.map_eq_some_iff.mp h
    rw [Declaration.toBlueprint, toBlueprint_of_toDeclaration? element helement]
    rfl
  | .sequence members, declaration, h => by
    obtain ⟨members', hmembers, rfl⟩ := Option.map_eq_some_iff.mp h
    rw [Declaration.toBlueprint, membersToBlueprints_of_declarations members hmembers]
    rfl
  | .record members, declaration, h => by
    obtain ⟨entries, hentries, rfl⟩ := Option.map_eq_some_iff.mp h
    rw [Declaration.toBlueprint, entriesToBlueprints_of_entries members hentries]
    rfl

private theorem membersToBlueprints_of_declarations : ∀ (members : List Blueprint)
    {declarations : List Declaration}, membersToDeclarations? members = some declarations →
      Declaration.membersToBlueprints declarations = .ok members
  | [], declarations, h => by
    obtain rfl := Option.some.inj h
    rfl
  | member :: members, declarations, h => by
    obtain ⟨member', hmember, h⟩ := Option.bind_eq_some_iff.mp h
    obtain ⟨members', hmembers, rfl⟩ := Option.map_eq_some_iff.mp h
    rw [Declaration.membersToBlueprints, toBlueprint_of_toDeclaration? member hmember,
      membersToBlueprints_of_declarations members hmembers]
    rfl

private theorem entriesToBlueprints_of_entries : ∀ (members : List (String × Blueprint))
    {entries : List (List (String × Declaration))} {position : Nat},
      membersToEntries? members = some entries →
        Declaration.entriesToBlueprints entries position = .ok members
  | [], entries, position, h => by
    obtain rfl := Option.some.inj h
    rfl
  | (name, member) :: members, entries, position, h => by
    obtain ⟨member', hmember, h⟩ := Option.bind_eq_some_iff.mp h
    obtain ⟨entries, hentries, rfl⟩ := Option.map_eq_some_iff.mp h
    rw [Declaration.entriesToBlueprints, Declaration.entryToBlueprint,
      toBlueprint_of_toDeclaration? member hmember, entriesToBlueprints_of_entries members hentries]
    rfl

end

end Blueprint

namespace Declaration

mutual

/-- A declaration is that of its blueprint. -/
private theorem toDeclaration?_of_toBlueprint : ∀ (declaration : Declaration)
    {blueprint : Blueprint}, declaration.toBlueprint = .ok blueprint →
      blueprint.toDeclaration? = some declaration
  | .format text, blueprint, h => by
    obtain rfl := Except.ok.inj h
    rfl
  | .array count element, blueprint, h => by
    obtain ⟨element', helement, h⟩ := Outcome.bind_eq_ok_iff.mp h
    obtain rfl := Except.ok.inj h
    rw [Blueprint.toDeclaration?, toDeclaration?_of_toBlueprint element helement]
    rfl
  | .sequence members, blueprint, h => by
    obtain ⟨members', hmembers, h⟩ := Outcome.bind_eq_ok_iff.mp h
    obtain rfl := Except.ok.inj h
    rw [Blueprint.toDeclaration?, membersToDeclarations?_of_blueprints members hmembers]
    rfl
  | .record entries, blueprint, h => by
    obtain ⟨members, hmembers, h⟩ := Outcome.bind_eq_ok_iff.mp h
    obtain rfl := Except.ok.inj h
    rw [Blueprint.toDeclaration?, membersToEntries?_of_members entries hmembers]
    rfl

private theorem membersToDeclarations?_of_blueprints : ∀ (declarations : List Declaration)
    {members : List Blueprint}, membersToBlueprints declarations = .ok members →
      Blueprint.membersToDeclarations? members = some declarations
  | [], members, h => by
    obtain rfl := Except.ok.inj h
    rfl
  | declaration :: declarations, members, h => by
    obtain ⟨member, hmember, h⟩ := Outcome.bind_eq_ok_iff.mp h
    obtain ⟨members, hmembers, h⟩ := Outcome.bind_eq_ok_iff.mp h
    obtain rfl := Except.ok.inj h
    rw [Blueprint.membersToDeclarations?, toDeclaration?_of_toBlueprint declaration hmember,
      membersToDeclarations?_of_blueprints declarations hmembers]
    rfl

private theorem membersToEntries?_of_members : ∀ (entries : List (List (String × Declaration)))
    {position : Nat} {members : List (String × Blueprint)},
      entriesToBlueprints entries position = .ok members →
        Blueprint.membersToEntries? members = some entries
  | [], position, members, h => by
    obtain rfl := Except.ok.inj h
    rfl
  | entry :: entries, position, members, h => by
    obtain ⟨member, hmember, h⟩ := Outcome.bind_eq_ok_iff.mp h
    obtain ⟨members, hmembers, h⟩ := Outcome.bind_eq_ok_iff.mp h
    obtain rfl := Except.ok.inj h
    match entry with
    | [(name, declaration)] =>
      obtain ⟨blueprint, hblueprint, hmember⟩ := Outcome.bind_eq_ok_iff.mp hmember
      obtain rfl := Except.ok.inj hmember
      rw [Blueprint.membersToEntries?, toDeclaration?_of_toBlueprint declaration hblueprint,
        membersToEntries?_of_members entries hmembers]
      rfl
    | [] | _ :: _ :: _ => cases hmember

end

/-- A declaration gives a blueprint exactly if it is the declaration of that blueprint. -/
theorem toBlueprint_eq_ok_iff {declaration : Declaration} {blueprint : Blueprint} :
    declaration.toBlueprint = .ok blueprint ↔ blueprint.toDeclaration? = some declaration :=
  ⟨declaration.toDeclaration?_of_toBlueprint, blueprint.toBlueprint_of_toDeclaration?⟩

/-- A declaration has no blueprint exactly if some entry in it, at whatever depth, does not hold
one name, and what is reported then is the position of the first such entry in the order of the
document. A catalog asked for the layout gives that report and stays as it is, whatever else may be
wrong; otherwise it does for the declaration what it does for the blueprint. Different declarations
have different blueprints, namely those that they are the declarations of, and all blueprints
without finished layouts have one. -/
theorem toBlueprint_faithful (declaration : Declaration) :
    ((∃ cause, declaration.toBlueprint = .error cause) ↔
        ∃ entry ∈ declaration.entriesIn, entry.size ≠ 1) ∧
      (∀ cause, declaration.toBlueprint = .error cause ↔
        ∃ before bad after, declaration.entriesIn = before ++ bad :: after ∧
          (∀ entry ∈ before, entry.size = 1) ∧ bad.size ≠ 1 ∧ cause = .badEntry bad.position) ∧
      (∀ cause catalog, declaration.toBlueprint = .error cause →
        declaration.pack.run.run catalog = (.error cause, catalog)) ∧
      (∀ blueprint catalog, declaration.toBlueprint = .ok blueprint →
        declaration.pack.run.run catalog = blueprint.pack.run.run catalog) ∧
      (∀ blueprint, declaration.toBlueprint = .ok blueprint ↔
        blueprint.toDeclaration? = some declaration) ∧
      (∀ other blueprint, declaration.toBlueprint = .ok blueprint →
        other.toBlueprint = .ok blueprint → other = declaration) ∧
      ∀ blueprint : Blueprint, (∃ other : Declaration, other.toBlueprint = .ok blueprint) ↔
        blueprint.finishedIn = [] := by
  refine ⟨declaration.toBlueprint_settles.exists_error_iff,
    fun cause => declaration.toBlueprint_settles.eq_error_iff, ?_, ?_,
    fun blueprint => toBlueprint_eq_ok_iff, ?_, ?_⟩
  · intro cause catalog h
    rw [pack, h]
    rfl
  · intro blueprint catalog h
    rw [pack, h]
    rfl
  · intro other blueprint h hother
    rw [toBlueprint_eq_ok_iff] at h hother
    exact Option.some.inj (hother.symm.trans h)
  · intro blueprint
    rw [← blueprint.isSome_toDeclaration?_iff, Option.isSome_iff_exists]
    exact exists_congr fun other => toBlueprint_eq_ok_iff

-- an entry of a record inside the second entry comes before the third entry
example : toBlueprint (.record [[("a", .format "B")],
    [("b", .array 2 (.record [[("x", .format "?")], []]))], []]) = .error (.badEntry 1) := rfl

end Declaration

end BinaryLayout
