import BinaryLayout.Proofs.Blueprint.Outline
import BinaryLayout.Proofs.Layout.Directory

/-!
# Names in the records of blueprints

The names of a record are looked at before any of its members is built: if one repeats, the record
is refused for it and the catalog stays as it is. Otherwise the record is built as the sequence of
its members is, with the same effect on the catalog, and the names are put to what comes out.

`Layout.record_is_sequence_with_distinct_names` says this of records of layouts and of records of
blueprints.
-/

namespace BinaryLayout

open Outcome (Agree)
open Layout (FirstRepeat NamedAs)

namespace Blueprint

variable {parts : List (String × Blueprint)} {bit : Nat} {catalog last : Catalog}

/-- A record with a repeated name is refused for the first such name, and the catalog stays as it
is, whatever the members are. -/
theorem run_record_of_firstRepeat {name : String} (h : FirstRepeat name (parts.map Prod.fst)) :
    ((record parts).build bit).run.run catalog = (.error (.duplicateName name), catalog) := by
  have hcheck := Layout.checkNames_eq_error_iff.mpr ⟨name, rfl, h⟩
  rw [build, Build.run_bind, hcheck]
  rfl

/-- A record with distinct names is built as the sequence of its members: both fail for one cause,
or the record is the sequence under its names, and they leave the same catalog. -/
theorem run_record_of_nodup (hn : (parts.map Prod.fst).Nodup) (bit : Nat) (catalog : Catalog) :
    Agree (NamedAs (parts.map Prod.fst)) (((record parts).build bit).run.run catalog).1
        (((sequence (parts.map Prod.snd)).build bit).run.run catalog).1 ∧
      (((record parts).build bit).run.run catalog).2 =
        (((sequence (parts.map Prod.snd)).build bit).run.run catalog).2 := by
  have hrecord : (record parts).build bit = buildMembers (parts.map Prod.snd) bit >>= fun layouts =>
      Build.share fun handle =>
        Layout.recordOf handle ((parts.map Prod.fst).zip layouts) := by
    have hcheck := Layout.checkNames_eq_ok_iff.mpr hn
    rw [build, hcheck, buildNamedMembers_eq, bind_assoc]
    simp only [pure_bind]
    rfl
  rw [hrecord, build, Build.run_bind, Build.run_bind]
  cases hrun : (buildMembers (parts.map Prod.snd) bit).run.run catalog with
  | mk outcome later =>
    cases outcome with
    | error cause => exact ⟨.error, rfl⟩
    | ok layouts =>
      have hlength := length_of_buildMembers hrun
      rw [List.length_map] at hlength
      have hnames : ((parts.map Prod.fst).zip layouts).map Prod.fst = parts.map Prod.fst :=
        List.map_fst_zip (by simp [hlength])
      have hlayouts : ((parts.map Prod.fst).zip layouts).map Prod.snd = layouts :=
        List.map_snd_zip (by simp [hlength])
      have hagree := Layout.recordOf_agree_sequenceOf (hnames ▸ hn) later.issue.1
      rw [hnames, hlayouts] at hagree
      exact ⟨hagree, rfl⟩

end Blueprint

/-- Records are refused for a repeated name, namely the first, before anything else is looked at:
their members may lie badly, and the parts of a blueprint need not be readable. There is such a name
exactly if the names are not distinct. A record with distinct names is the sequence of the same
members under them, with positions and names leading to each other, and it is refused exactly as
that sequence is, which is never for a name of its own. All of this holds of layouts, also if the
record is built from a directory, and of blueprints, where the catalog is left as it was for a
repeated name and as the sequence leaves it otherwise. -/
theorem Layout.record_is_sequence_with_distinct_names (handle : Handle)
    (members : List (String × Layout)) (parts : List (String × Blueprint)) (bit : Nat)
    (catalog : Catalog) :
    (∀ names, (∃ name, FirstRepeat name names) ↔ ¬ names.Nodup) ∧
      (∀ name, recordOf handle members = .error (.duplicateName name) ↔
        FirstRepeat name (members.map Prod.fst)) ∧
      ((members.map Prod.fst).Nodup → Agree (NamedAs (members.map Prod.fst))
        (recordOf handle members) (sequenceOf handle (members.map Prod.snd))) ∧
      (∀ name, sequenceOf handle (members.map Prod.snd) ≠ .error (.duplicateName name)) ∧
      Directory.record handle members = recordOf handle members ∧
      (∀ directory record, Directory.ofMembers members = .ok directory →
        recordOf handle members = .ok record →
          ∀ name, directory.position? name = record.position? name) ∧
      (∀ name, FirstRepeat name (parts.map Prod.fst) →
        ((Blueprint.record parts).build bit).run.run catalog =
          (.error (.duplicateName name), catalog)) ∧
      ((parts.map Prod.fst).Nodup →
        Agree (NamedAs (parts.map Prod.fst))
            (((Blueprint.record parts).build bit).run.run catalog).1
            (((Blueprint.sequence (parts.map Prod.snd)).build bit).run.run catalog).1 ∧
          (((Blueprint.record parts).build bit).run.run catalog).2 =
            (((Blueprint.sequence (parts.map Prod.snd)).build bit).run.run catalog).2) := by
  refine ⟨fun names => exists_firstRepeat_iff, fun name => recordOf_eq_duplicateName_iff,
    fun hn => recordOf_agree_sequenceOf hn handle, fun name => groupOf_ne_duplicateName,
    Directory.record_eq_recordOf handle members, ?_, ?_, ?_⟩
  · exact fun directory record hd hl => Directory.position?_eq hd hl
  · exact fun name h => Blueprint.run_record_of_firstRepeat h
  · exact fun hn => Blueprint.run_record_of_nodup hn bit catalog

-- the second name to repeat, and a format string that cannot be read, make no difference
example : (Blueprint.pack (.record [("x", .format "B"), ("y", .format "?"), ("x", .format "B"),
    ("y", .format "B")])).run.run (.empty 0 .big) =
      (.error (.duplicateName "x"), .empty 0 .big) := rfl

end BinaryLayout
