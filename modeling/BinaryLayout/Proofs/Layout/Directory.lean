import BinaryLayout.Layout.Directory
import BinaryLayout.Proofs.Layout.Laid
import Mathlib.Data.List.Nodup

/-!
# Names of the members of a record

A record is refused for a name exactly if that name is the first one to repeat
(`checkNames_eq_error_iff`). If none does, the record is the sequence of the same members under
their names: one fails as the other does, and what they give is related by `NamedAs`, which also
says that names and positions lead to each other (`recordOf_agree_sequenceOf`).

The directory of the members holds the same names and positions (`Directory.ofMembers_eq`), so that
it makes no difference whether positions are kept by name or found by going through the names.
-/

namespace BinaryLayout.Layout

open Outcome (Agree)

/-! ### The first repeated name -/

/-- The names up to some place are distinct, and `name`, which stands there, is one of them. -/
def FirstRepeat (name : String) (names : List String) : Prop :=
  ∃ before after, names = before ++ name :: after ∧ before.Nodup ∧ name ∈ before

private theorem firstRepeat_eq_some_iff {seen names : List String} {name : String} :
    firstRepeat seen names = some name ↔ ∃ before after, names = before ++ name :: after ∧
      before.Nodup ∧ (∀ other ∈ before, other ∉ seen) ∧ (name ∈ before ∨ name ∈ seen) := by
  induction names generalizing seen with
  | nil => simp [firstRepeat]
  | cons head names ih =>
    rw [firstRepeat]
    split
    · rename_i hseen
      constructor
      · intro h
        obtain rfl := Option.some.inj h
        exact ⟨[], names, rfl, List.nodup_nil, by simp, .inr hseen⟩
      · rintro ⟨_ | ⟨first, before⟩, after, hnames, -, hfresh, -⟩
        · rw [(List.cons.inj hnames).1]
        · obtain ⟨rfl, -⟩ := List.cons.inj hnames
          exact absurd hseen (hfresh head List.mem_cons_self)
    · rename_i hseen
      rw [ih]
      constructor
      · rintro ⟨before, after, rfl, hn, hfresh, hname⟩
        simp only [List.mem_cons, not_or] at hfresh hname
        refine ⟨head :: before, after, rfl, ?_, ?_, ?_⟩
        · exact List.nodup_cons.mpr ⟨fun hmem => (hfresh head hmem).1 rfl, hn⟩
        · simpa [hseen] using fun other hmem => (hfresh other hmem).2
        · rw [List.mem_cons]
          tauto
      · rintro ⟨_ | ⟨first, before⟩, after, hnames, hn, hfresh, hname⟩
        · -- the name has been seen, and the head has not
          obtain ⟨rfl, -⟩ := List.cons.inj hnames
          exact absurd (hname.resolve_left List.not_mem_nil) hseen
        · obtain ⟨rfl, rfl⟩ := List.cons.inj hnames
          obtain ⟨hhead, hn⟩ := List.nodup_cons.mp hn
          refine ⟨before, after, rfl, hn, fun other hmem => ?_, ?_⟩
          · rintro (_ | ⟨_, hother⟩)
            · exact hhead hmem
            · exact hfresh other (List.mem_cons_of_mem _ hmem) hother
          · rw [List.mem_cons] at hname ⊢
            tauto

/-- Names are refused for the first of them to repeat. -/
theorem checkNames_eq_error_iff {names : List String} {cause : BuildError} :
    checkNames names = .error cause ↔ ∃ name, cause = .duplicateName name ∧
      FirstRepeat name names := by
  have hfirst (name : String) : firstRepeat [] names = some name ↔ FirstRepeat name names := by
    simp [firstRepeat_eq_some_iff, FirstRepeat]
  simp only [checkNames, ← hfirst]
  cases firstRepeat [] names with
  | none => simp
  | some name => simp [eq_comm]

/-- Some name is the first to repeat exactly if the names are not distinct. -/
theorem exists_firstRepeat_iff {names : List String} :
    (∃ name, FirstRepeat name names) ↔ ¬ names.Nodup := by
  rw [← checkNames_eq_ok_iff]
  constructor
  · rintro ⟨name, h⟩ hok
    have herror := checkNames_eq_error_iff.mpr ⟨name, rfl, h⟩
    rw [hok] at herror
    cases herror
  · intro h
    cases hcheck : checkNames names with
    | ok _ => exact absurd hcheck h
    | error cause =>
      obtain ⟨name, -, hname⟩ := checkNames_eq_error_iff.mp hcheck
      exact ⟨name, hname⟩

/-! ### A record is a sequence with names -/

/-- Members are refused for how they lie and not for names. -/
private theorem layOut_ne_duplicateName {length : Nat} {layouts : List Layout} {start : Nat}
    {name : String} : layOut length layouts start ≠ .error (.duplicateName name) := by
  induction layouts generalizing start with
  | nil => simp [layOut]
  | cons layout layouts ih =>
    rw [layOut]
    intro h
    rcases Outcome.bind_eq_error_iff.mp h with h | ⟨_, -, h⟩
    · rw [checkStart] at h
      split at h <;> cases h
    · split at h
      · cases h
      · rcases Outcome.bind_eq_error_iff.mp h with h | ⟨_, -, h⟩
        · exact ih h
        · cases h

/-- A group is refused for how its members lie, whatever their labels. -/
private theorem groupOf_eq_error_iff {handle : Handle} {labels : Labels} {members : List Layout}
    {cause : BuildError} :
    groupOf handle labels members = .error cause ↔
      layOut members.length members 0 = .error cause := by
  rw [groupOf, Outcome.bind_eq_error_iff]
  simp [pure, Except.pure]

theorem groupOf_ne_duplicateName {handle : Handle} {labels : Labels} {members : List Layout}
    {name : String} : groupOf handle labels members ≠ .error (.duplicateName name) :=
  fun h => layOut_ne_duplicateName (groupOf_eq_error_iff.mp h)

/-- The record is the sequence under names: it has the same handle, members, bit offsets and size,
as many names and offsets as members, the names lead to the positions at which they stand, and no
other name leads anywhere. -/
structure NamedAs (names : List String) (record sequence : Layout) : Prop where
  same : ∃ handle members offsets bitSize,
    sequence = .group handle .positional members offsets bitSize ∧
      record = .group handle (.named names) members offsets bitSize ∧
        names.length = members.length ∧ offsets.length = members.length
  position?_name : ∀ i < names.length, (record.name? i).bind (record.position? ·) = some i
  position?_other : ∀ name, name ∉ names → record.position? name = none

/-- Distinct names of as many members fit the sequence of the members. -/
private theorem groupOf_agree_sequenceOf {names : List String} (hn : names.Nodup)
    {members : List Layout} (hlength : names.length = members.length) (handle : Handle) :
    Agree (NamedAs names) (groupOf handle (.named names) members)
      (sequenceOf handle members) := by
  cases hsequence : sequenceOf handle members with
  | error cause =>
    rw [groupOf_eq_error_iff.mpr (groupOf_eq_error_iff.mp hsequence)]
    exact .error
  | ok sequence =>
    obtain ⟨ha, hl, rfl⟩ := groupOf_eq_ok_iff.mp hsequence
    rw [groupOf_eq_ok_iff.mpr ⟨ha, hl, rfl⟩]
    refine .ok ⟨⟨handle, members, _, _, rfl, rfl, hlength, length_starts 0 members⟩, ?_, ?_⟩
    · intro i hi
      change (names[i]?).bind (fun name => names.findIdx? (· == name)) = some i
      rw [List.getElem?_eq_getElem hi, Option.bind_some]
      refine List.findIdx?_eq_some_iff_getElem.mpr ⟨hi, beq_self_eq_true _, fun j hj hbeq => ?_⟩
      have hsame := (List.Nodup.getElem_inj_iff hn).mp (eq_of_beq hbeq)
      omega
    · intro name hname
      refine List.findIdx?_eq_none_iff.mpr fun other hmem => ?_
      exact beq_eq_false_iff_ne.mpr fun heq => hname (heq ▸ hmem)

/-- A record of members with distinct names is the sequence of the members under these names; one
fails for the same cause as the other. -/
theorem recordOf_agree_sequenceOf {members : List (String × Layout)}
    (hn : (members.map Prod.fst).Nodup) (handle : Handle) :
    Agree (NamedAs (members.map Prod.fst)) (recordOf handle members)
      (sequenceOf handle (members.map Prod.snd)) := by
  rw [recordOf, checkNames_eq_ok_iff.mpr hn]
  exact groupOf_agree_sequenceOf hn (by simp) handle

/-- A record is refused for a name exactly if that name is the first one to repeat. -/
theorem recordOf_eq_duplicateName_iff {handle : Handle} {members : List (String × Layout)}
    {name : String} :
    recordOf handle members = .error (.duplicateName name) ↔
      FirstRepeat name (members.map Prod.fst) := by
  have hcheck : checkNames (members.map Prod.fst) = .error (.duplicateName name) ↔
      FirstRepeat name (members.map Prod.fst) := by
    rw [checkNames_eq_error_iff]
    simp
  rw [← hcheck, recordOf, Outcome.bind_eq_error_iff, or_iff_left]
  rintro ⟨_, -, h⟩
  exact groupOf_ne_duplicateName h

/-! ### Directories -/

namespace Directory

/-- A name is found in a table of consecutive positions where it stands first among the names. -/
private theorem lookup_zipIdx (names : List String) (start : Nat) (name : String) :
    (names.zipIdx start).lookup name = (names.findIdx? (· == name)).map (· + start) := by
  induction names generalizing start with
  | nil => rfl
  | cons head names ih =>
    rw [List.zipIdx_cons, List.lookup_cons, List.findIdx?_cons, ih, Bool.beq_comm]
    cases head == name with
    | true => simp
    | false => simp [Option.map_map, Function.comp_def, Nat.add_assoc, Nat.add_comm 1]

private theorem position?_add (directory : Directory) (name : String) (layout : Layout)
    (position : Nat) (other : String) :
    (directory.add name layout position).position? other =
      (directory.position? other).or (if other = name then some position else none) := by
  rw [position?, add, List.lookup_append, List.lookup_cons, List.lookup_nil]
  by_cases h : other = name
  · simp [position?, h]
  · simp [position?, h, beq_eq_false_iff_ne.mpr h]

/-- Members are entered, in one pass, exactly if their names are distinct and not in the directory
yet, and else refused for the first one that is not so. -/
private theorem enter_eq {directory : Directory} {seen : List String}
    (hseen : ∀ name, name ∈ seen ↔ (directory.position? name).isSome)
    (position : Nat) (members : List (String × Layout)) :
    directory.enter position members = match firstRepeat seen (members.map Prod.fst) with
      | some name => .error (.duplicateName name)
      | none => .ok {
          names := directory.names ++ members.map Prod.fst
          layouts := directory.layouts ++ members.map Prod.snd
          positions := directory.positions ++ (members.map Prod.fst).zipIdx position } := by
  induction members generalizing directory seen position with
  | nil => simp [enter, firstRepeat]
  | cons member members ih =>
    obtain ⟨name, layout⟩ := member
    rw [enter, List.map_cons, firstRepeat]
    cases hposition : directory.position? name with
    | some found =>
      have hmem : name ∈ seen := (hseen name).mpr (by rw [hposition]; rfl)
      rw [if_pos hmem]
    | none =>
      have hmem : name ∉ seen := fun hmem => by simpa [hposition] using (hseen name).mp hmem
      have hadd (other : String) : other ∈ name :: seen ↔
          ((directory.add name layout position).position? other).isSome := by
        rw [position?_add, Option.isSome_or, Bool.or_eq_true, List.mem_cons, hseen, or_comm]
        by_cases h : other = name <;> simp [h]
      rw [if_neg hmem, ih hadd]
      simp [add]

/-- The directory of members lists their names and layouts, and counts the names from zero. -/
theorem ofMembers_eq (members : List (String × Layout)) :
    ofMembers members = checkNames (members.map Prod.fst) >>= fun _ => .ok {
      names := members.map Prod.fst
      layouts := members.map Prod.snd
      positions := (members.map Prod.fst).zipIdx } := by
  have hempty (name : String) : name ∈ [] ↔ (position? {} name).isSome := by simp [position?]
  rw [ofMembers, enter_eq hempty, checkNames]
  cases firstRepeat [] (members.map Prod.fst) <;> rfl

/-- Built from the directory of its members, a record is the same. -/
theorem record_eq_recordOf (handle : Handle) (members : List (String × Layout)) :
    record handle members = recordOf handle members := by
  rw [record, recordOf, ofMembers_eq]
  cases checkNames (members.map Prod.fst) <;> rfl

/-- Names have the same positions in a record as in the directory of its members. -/
theorem position?_eq {handle : Handle} {members : List (String × Layout)} {directory : Directory}
    {layout : Layout} (hd : ofMembers members = .ok directory)
    (hl : recordOf handle members = .ok layout) (name : String) :
    directory.position? name = layout.position? name := by
  obtain ⟨-, hgroup⟩ := recordOf_eq_ok_iff.mp hl
  obtain ⟨-, -, rfl⟩ := groupOf_eq_ok_iff.mp hgroup
  rw [ofMembers_eq, Outcome.check_eq_ok_iff] at hd
  obtain rfl := Except.ok.inj hd.2
  change ((members.map Prod.fst).zipIdx).lookup name =
    (members.map Prod.fst).findIdx? (· == name)
  rw [lookup_zipIdx]
  simp

end Directory

end BinaryLayout.Layout
