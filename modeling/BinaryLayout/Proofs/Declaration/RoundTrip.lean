import BinaryLayout.Declaration.Json
import BinaryLayout.Proofs.Json.Plain
import BinaryLayout.Proofs.Json.RoundTrip

/-!
# Declarations survive as JSON

The document of a declaration does not name the form of the declaration. It is told by the shape of
the document: a string, an object with `count` and `element`, one with `sequence`, and an array. A
declaration is **proper** when its counts are extents and its entries are maps; it is read back from
its document (`Proper.ofJson?_toJson`), and from its text (`Proper.parse_json`).
-/

namespace BinaryLayout.Declaration

/-- The names of an entry come in increasing order. -/
def Increasing (entry : List (String × Declaration)) : Prop :=
  entry.Pairwise fun one other => one.1 < other.1

/-- The counts in the declaration are extents, and its entries hold every name once, in order. -/
inductive Proper : Declaration → Prop
  | format (text : String) : Proper (.format text)
  | array {count : Nat} {element : Declaration} (hcount : count ≤ Extent.limit)
      (h : Proper element) : Proper (.array count element)
  | sequence {members : List Declaration} (h : ∀ member ∈ members, Proper member) :
      Proper (.sequence members)
  | record {entries : List (List (String × Declaration))}
      (hentries : ∀ entry ∈ entries, Increasing entry)
      (h : ∀ entry ∈ entries, ∀ member ∈ entry, Proper member.2) : Proper (.record entries)

variable {declaration : Declaration}

/-! ### Documents -/

theorem membersToJson_eq_map (members : List Declaration) :
    membersToJson members = members.map toJson := by
  induction members with
  | nil => rfl
  | cons member members ih => rw [membersToJson, ih, List.map_cons]

private theorem entryToJson_eq_map (entry : List (String × Declaration)) :
    entryToJson entry = entry.map fun member => (some member.1, member.2.toJson) := by
  induction entry with
  | nil => rfl
  | cons member entry ih => rw [entryToJson, ih, List.map_cons]

private theorem entriesToJson_eq_map (entries : List (List (String × Declaration))) :
    entriesToJson entries = entries.map fun entry => .object (entryToJson entry) := by
  induction entries with
  | nil => rfl
  | cons entry entries ih => rw [entriesToJson, ih, List.map_cons]

/-- An array is an object with its count and its element. -/
private theorem toJson_array (count : Nat) (element : Declaration) : (array count element).toJson =
    .object [(some "count", .nat count), (some "element", element.toJson)] := by
  rw [toJson]
  rfl

/-- A sequence is an object with the list of its members. -/
private theorem toJson_sequence (members : List Declaration) : (sequence members).toJson =
    .object [(some "sequence", .array (members.map toJson))] := by
  rw [toJson, membersToJson_eq_map]
  rfl

/-- A record is an array of objects, one for each entry. -/
private theorem toJson_record (entries : List (List (String × Declaration))) :
    (record entries).toJson = .array (entries.map fun entry =>
      .object (entry.map fun member => (some member.1, member.2.toJson))) := by
  rw [toJson, entriesToJson_eq_map]
  simp only [entryToJson_eq_map]

/-- The document of a declaration can be written without loss. -/
theorem Proper.definite (h : declaration.Proper) : declaration.toJson.Definite := by
  induction h with
  | format text => exact .string text
  | array _ _ ih =>
    rw [toJson_array]
    exact .object (by simp) (by simpa using ⟨Json.definite_nat _, ih⟩)
  | sequence _ ih =>
    rw [toJson_sequence]
    exact .object (by simp) (by simpa using .array (List.forall_mem_map.mpr ih))
  | record _ _ ih =>
    rw [toJson_record]
    refine .array (List.forall_mem_map.mpr fun entry hentry => .object ?_ ?_)
    · exact List.forall_mem_map.mpr fun _ _ => rfl
    · exact List.forall_mem_map.mpr (ih entry hentry)

/-- The only thing about the document of a declaration that can be too much is its depth. -/
theorem Proper.isPlainTo_iff (h : declaration.Proper) (n : Nat) :
    declaration.toJson.isPlainTo n = true ↔ declaration.toJson.depth ≤ n := by
  induction h generalizing n with
  | format text => simp [toJson, Json.text, Json.isPlainTo, Json.depth]
  | @array count element hcount _ ih =>
    have hnat (n : Nat) : (Json.nat count).isPlainTo n = true ↔ (Json.nat count).depth ≤ n := by
      simp [Json.nat, Json.isPlainTo, Json.depth, Json.Number.isFinite_ofNat hcount]
    rw [toJson_array]
    exact Json.isPlainTo_object_iff (by simp) (by simpa using ⟨hnat, ih⟩) n
  | sequence _ ih =>
    rw [toJson_sequence]
    refine Json.isPlainTo_object_iff (by simp) ?_ n
    simpa using Json.isPlainTo_array_iff (List.forall_mem_map.mpr ih)
  | record _ _ ih =>
    rw [toJson_record]
    refine Json.isPlainTo_array_iff (List.forall_mem_map.mpr fun entry hentry => ?_) n
    refine Json.isPlainTo_object_iff ?_ ?_
    · exact List.forall_mem_map.mpr fun _ _ => rfl
    · exact List.forall_mem_map.mpr (ih entry hentry)

/-! ### Entries -/

/-- A name beyond all others is set behind them. -/
private theorem setEntry_of_forall_lt {name : String} {member : Declaration}
    {entry : List (String × Declaration)} (h : ∀ other ∈ entry, other.1 < name) :
    setEntry name member entry = entry ++ [(name, member)] := by
  induction entry with
  | nil => rfl
  | cons other entry ih =>
    obtain ⟨hother, hentry⟩ := List.forall_mem_cons.mp h
    have hne : name ≠ other.1 := by
      intro heq
      exact String.lt_irrefl name (heq ▸ hother)
    rw [setEntry, if_neg (String.lt_asymm hother), if_neg hne, ih hentry, List.cons_append]

/-- The members of an entry are set one after the other. -/
theorem entryOfList_eq_foldl (members : List (String × Declaration)) : entryOfList members =
    members.foldl (fun entry member => setEntry member.1 member.2 entry) [] := rfl

/-- A map is made of its members in order. -/
private theorem entryOfList_of_increasing {entry : List (String × Declaration)}
    (h : Increasing entry) : entryOfList entry = entry := by
  suffices hfold : ∀ first last, Increasing (first ++ last) →
      last.foldl (fun entry member => setEntry member.1 member.2 entry) first = first ++ last by
    rw [entryOfList_eq_foldl, hfold [] entry h, List.nil_append]
  intro first last
  induction last generalizing first with
  | nil =>
    intro _
    rw [List.foldl_nil, List.append_nil]
  | cons next last ih =>
    intro h
    have hlt (other) (hmem : other ∈ first) : other.1 < next.1 :=
      (List.pairwise_append.mp h).2.2 other hmem _ List.mem_cons_self
    rw [List.foldl_cons, setEntry_of_forall_lt hlt, ih _ (by simpa using h), List.append_assoc,
      List.singleton_append]

/-! ### Reading -/

/-- Declarations that are read back are read back in a row. -/
private theorem listOf_map_toJson {members : List Declaration}
    (h : ∀ member ∈ members, ofJson? member.toJson = some member) :
    listOf (members.map toJson) = some members := by
  induction members with
  | nil => rfl
  | cons member members ih =>
    obtain ⟨hmember, hmembers⟩ := List.forall_mem_cons.mp h
    rw [List.map_cons, listOf, hmember, ih hmembers]

/-- Members under their names are read back in a row. -/
private theorem pairsOf_map_toJson {entry : List (String × Declaration)}
    (h : ∀ member ∈ entry, ofJson? member.2.toJson = some member.2) :
    pairsOf (entry.map fun member => (some member.1, member.2.toJson)) = some entry := by
  induction entry with
  | nil => rfl
  | cons member entry ih =>
    obtain ⟨hmember, hentry⟩ := List.forall_mem_cons.mp h
    rw [List.map_cons, pairsOf, hmember, ih hentry]

/-- Entries that are maps are read back in a row. -/
private theorem entriesOf_map_toJson {entries : List (List (String × Declaration))}
    (hentries : ∀ entry ∈ entries, Increasing entry)
    (h : ∀ entry ∈ entries, ∀ member ∈ entry, ofJson? member.2.toJson = some member.2) :
    entriesOf (entries.map fun entry =>
      .object (entry.map fun member => (some member.1, member.2.toJson))) = some entries := by
  induction entries with
  | nil => rfl
  | cons entry entries ih =>
    obtain ⟨hentry, hentries⟩ := List.forall_mem_cons.mp hentries
    obtain ⟨hmembers, hrest⟩ := List.forall_mem_cons.mp h
    rw [List.map_cons, entriesOf, entryOf, pairsOf_map_toJson hmembers, Option.map_some,
      entryOfList_of_increasing hentry, ih hentries hrest]

/-- A proper declaration is read back from its document. -/
theorem Proper.ofJson?_toJson (h : declaration.Proper) :
    ofJson? declaration.toJson = some declaration := by
  induction h with
  | format text => rfl
  | @array count element hcount _ ih =>
    have hextent : (Json.nat count).extent? = some count := by
      simp [Json.nat, Json.extent?, Json.Number.extent?, Json.Number.ofNat, Json.Number.isPlain,
        hcount]
    rw [toJson_array]
    simp [ofJson?, Json.valuesOf, elementsOf, single?, ih, hextent]
  | sequence _ ih =>
    rw [toJson_sequence]
    simp [ofJson?, Json.valuesOf, sequencesOf, single?, itemsOf, listOf_map_toJson ih]
  | record hentries _ ih =>
    rw [toJson_record, ofJson?, entriesOf_map_toJson hentries ih, Option.map_some]

/-- A proper declaration is read back from its text, unless the text is nested too deep for the
reader, and no other proper declaration has that text. -/
theorem Proper.parse_json (h : declaration.Proper) :
    (Json.parse declaration.json).bind ofJson? = some declaration ∧
    parse declaration.json =
      (if declaration.toJson.depth ≤ Json.maxDepth then some declaration else none) ∧
    ∀ other : Declaration, other.Proper → other.json = declaration.json → other = declaration := by
  have hparse : Json.parse declaration.json = some declaration.toJson := h.definite.parse_compact
  refine ⟨?_, ?_, fun other ho heq => ?_⟩
  · rw [hparse, Option.bind_some, h.ofJson?_toJson]
  · rw [parse, hparse]
    simp only [Option.bind_eq_bind, Option.bind_some, Json.isPlain, h.isPlainTo_iff,
      h.ofJson?_toJson]
  · -- equal texts are texts of the same document
    have hdocument := ho.definite.compact_inj h.definite heq
    exact Option.some.inj (by rw [← ho.ofJson?_toJson, hdocument, h.ofJson?_toJson])

/-- A declaration with the largest count, an entry without a name, one with two names, and texts
that have to be escaped. -/
def message : Declaration :=
  .record [
    [("version", .format "<B")],
    [],
    [("count", .array 18446744073709551615 (.sequence [.format "u3", .record []])),
      ("say \"é\"\n", .array 0 (.format "\x01\\"))]]

private theorem proper_message : message.Proper := by
  have hlist : (sequence [.format "u3", .record []]).Proper :=
    .sequence (by simpa using ⟨.format _, .record nofun nofun⟩)
  refine .record ?_ ?_
  · simp only [List.forall_mem_cons, Increasing]
    decide +kernel
  · simp only [List.forall_mem_cons]
    exact ⟨⟨.format _, nofun⟩, nofun,
      ⟨.array (by decide) hlist, .array (by decide) (.format _), nofun⟩, nofun⟩

/-- The message is read back. -/
theorem parse_json_message : (Json.parse message.json).bind ofJson? = some message ∧
    parse message.json = some message ∧
    ∀ other : Declaration, other.Proper → other.json = message.json → other = message := by
  obtain ⟨hread, hparse, hother⟩ := proper_message.parse_json
  refine ⟨hread, ?_, hother⟩
  rw [hparse, if_pos (by decide +kernel)]

end BinaryLayout.Declaration
