import BinaryLayout.Proofs.Declaration.RoundTrip

/-!
# What is read is proper

A declaration is proper exactly if some document denotes it (`proper_iff`). A number that stands for
a count is an extent, and the entries that are made of members hold every name once, in order
(`increasing_entryOfList`), whatever names a document repeats.
-/

namespace BinaryLayout

/-- A number that stands for a count is an extent. -/
private theorem Json.le_limit_of_extent? {document : Json} {n : Nat}
    (h : document.extent? = some n) : n ≤ Extent.limit := by
  cases document with
  | number literal =>
    rw [extent?, Number.extent?] at h
    split at h
    · rename_i hl
      obtain rfl := Option.some.inj h
      simp only [Bool.and_eq_true, decide_eq_true_eq] at hl
      exact hl.2
    · cases h
  | _ => cases h

namespace Declaration

/-! ### Entries -/

/-- An entry with a member set holds that member, and otherwise what it held before. -/
private theorem mem_setEntry {name : String} {member : Declaration}
    {entry : List (String × Declaration)} {other : String × Declaration}
    (h : other ∈ setEntry name member entry) :
    other = (name, member) ∨ other ∈ entry := by
  induction entry with
  | nil => exact .inl (List.mem_singleton.mp h)
  | cons head entry ih =>
    rw [setEntry] at h
    split at h
    · simpa using h
    · split at h
      · exact (List.mem_cons.mp h).imp_right (List.mem_cons_of_mem _)
      · rcases List.mem_cons.mp h with rfl | h
        · exact .inr List.mem_cons_self
        · exact (ih h).imp_right (List.mem_cons_of_mem _)

/-- A member that is set comes to stand where its name belongs, or takes the place of the member of
that name, so that the names keep increasing. -/
theorem Increasing.setEntry {entry : List (String × Declaration)} (h : Increasing entry)
    (name : String) (member : Declaration) : Increasing (setEntry name member entry) := by
  induction entry with
  | nil => exact List.pairwise_singleton _ _
  | cons head entry ih =>
    obtain ⟨hhead, hentry⟩ := List.pairwise_cons.mp h
    rw [Declaration.setEntry]
    split
    · rename_i hlt
      refine List.pairwise_cons.mpr ⟨fun other hmem => ?_, h⟩
      rcases List.mem_cons.mp hmem with rfl | hmem
      · exact hlt
      · exact String.lt_trans hlt (hhead other hmem)
    · rename_i hnot
      split
      · rename_i heq
        subst heq
        exact List.pairwise_cons.mpr ⟨hhead, hentry⟩
      · rename_i hne
        refine List.pairwise_cons.mpr ⟨fun other hmem => ?_, ih hentry⟩
        rcases mem_setEntry hmem with rfl | hmem
        · -- of two names that differ one comes first
          by_contra hlt
          exact hne (String.le_antisymm hlt hnot)
        · exact hhead other hmem

/-- An entry made of members holds some of them, in the order of their names. -/
theorem increasing_entryOfList (members : List (String × Declaration)) :
    Increasing (entryOfList members) ∧ ∀ other ∈ entryOfList members, other ∈ members := by
  suffices h : ∀ (entry : List (String × Declaration)), Increasing entry →
      Increasing (members.foldl (fun entry member => setEntry member.1 member.2 entry) entry) ∧
      ∀ other ∈ members.foldl (fun entry member => setEntry member.1 member.2 entry) entry,
        other ∈ entry ∨ other ∈ members by
    rw [entryOfList_eq_foldl]
    obtain ⟨hincreasing, hmem⟩ := h [] List.Pairwise.nil
    exact ⟨hincreasing, fun other h => (hmem other h).resolve_left List.not_mem_nil⟩
  induction members with
  | nil => exact fun entry h => ⟨h, fun _ => .inl⟩
  | cons next members ih =>
    intro entry h
    obtain ⟨hincreasing, hmem⟩ := ih _ (h.setEntry next.1 next.2)
    refine ⟨hincreasing, fun other hother => ?_⟩
    rcases hmem other hother with hset | hlater
    · rcases mem_setEntry hset with rfl | hentry
      · exact .inr List.mem_cons_self
      · exact .inl hentry
    · exact .inr (List.mem_cons_of_mem _ hlater)

/-- A list with a single element is that element alone. -/
private theorem eq_singleton_of_single? {α : Type} {as : List α} {a : α} (h : single? as = some a) :
    as = [a] := by
  match as, h with
  | [_], h =>
    rw [single?] at h
    rw [Option.some.inj h]

/-! ### Documents -/

mutual

/-- What a document denotes is proper. -/
private theorem proper_of_ofJson? : ∀ (document : Json) {declaration : Declaration},
    ofJson? document = some declaration → declaration.Proper
  | .null, _, h | .bool _, _, h | .number _, _, h | .string none, _, h => by cases h
  | .string (some text), _, h => by
    obtain rfl := Option.some.inj h
    exact .format text
  | .array entries, _, h => by
    rw [ofJson?] at h
    obtain ⟨entries', hentries, rfl⟩ := Option.map_eq_some_iff.mp h
    have hproper := proper_of_entriesOf entries hentries
    exact .record (fun entry hmem => (hproper entry hmem).1)
      (fun entry hmem => (hproper entry hmem).2)
  | .object members, declaration, h => by
    -- what is not read as an array
    have hsequence (h : (single? (sequencesOf members)).join.map sequence = some declaration) :
        declaration.Proper := by
      obtain ⟨list, hlist, rfl⟩ := Option.map_eq_some_iff.mp h
      have hsingle := eq_singleton_of_single? (Option.join_eq_some_iff.mp hlist)
      exact .sequence (proper_of_sequencesOf members (by simp [hsingle]))
    rw [ofJson?] at h
    split at h
    · rename_i count element hcount helement
      split at h
      · rename_i n hn
        obtain rfl := Option.some.inj h
        exact .array (Json.le_limit_of_extent? hn)
          (proper_of_elementsOf members (by simp [eq_singleton_of_single? helement]))
      · exact hsequence h
    · exact hsequence h

/-- Each element that the members of an object name is proper. -/
private theorem proper_of_elementsOf : ∀ (members : List (Option String × Json))
    {element : Declaration}, some element ∈ elementsOf members → element.Proper
  | [], _, h => by cases h
  | (name, value) :: members, element, h => by
    rw [elementsOf] at h
    split at h
    · rcases List.mem_cons.mp h with h | h
      · exact proper_of_ofJson? value h.symm
      · exact proper_of_elementsOf members h
    · exact proper_of_elementsOf members h

private theorem proper_of_sequencesOf : ∀ (members : List (Option String × Json))
    {list : List Declaration}, some list ∈ sequencesOf members → ∀ member ∈ list, member.Proper
  | [], _, h => by cases h
  | (name, value) :: members, element, h => by
    rw [sequencesOf] at h
    split at h
    · rcases List.mem_cons.mp h with h | h
      · exact proper_of_itemsOf value h.symm
      · exact proper_of_sequencesOf members h
    · exact proper_of_sequencesOf members h

/-- A document that denotes a list denotes one of proper declarations. -/
private theorem proper_of_itemsOf : ∀ (document : Json) {list : List Declaration},
    itemsOf document = some list → ∀ member ∈ list, member.Proper
  | .array items, _, h => proper_of_listOf items h
  | .null, _, h | .bool _, _, h | .number _, _, h | .string _, _, h | .object _, _, h => by cases h

private theorem proper_of_listOf : ∀ (items : List Json) {list : List Declaration},
    listOf items = some list → ∀ member ∈ list, member.Proper
  | [], _, h => by
    obtain rfl := Option.some.inj h
    simp
  | item :: items, _, h => by
    rw [listOf] at h
    split at h
    · rename_i member members hmember hmembers
      obtain rfl := Option.some.inj h
      exact List.forall_mem_cons.mpr
        ⟨proper_of_ofJson? item hmember, proper_of_listOf items hmembers⟩
    · cases h

/-- The entries that documents in a row denote are increasing, and their members proper. -/
private theorem proper_of_entriesOf : ∀ (documents : List Json)
    {entries : List (List (String × Declaration))}, entriesOf documents = some entries →
      ∀ entry ∈ entries, Increasing entry ∧ ∀ member ∈ entry, member.2.Proper
  | [], _, h => by
    obtain rfl := Option.some.inj h
    simp
  | document :: documents, _, h => by
    rw [entriesOf] at h
    split at h
    · rename_i entry entries hentry hentries
      obtain rfl := Option.some.inj h
      exact List.forall_mem_cons.mpr
        ⟨proper_of_entryOf document hentry, proper_of_entriesOf documents hentries⟩
    · cases h

/-- The entry that a document denotes is increasing, whatever names the document repeats, and its
members are proper. -/
private theorem proper_of_entryOf : ∀ (document : Json) {entry : List (String × Declaration)},
    entryOf document = some entry → Increasing entry ∧ ∀ member ∈ entry, member.2.Proper
  | .object members, _, h => by
    obtain ⟨pairs, hpairs, rfl⟩ := Option.map_eq_some_iff.mp h
    obtain ⟨hincreasing, hmem⟩ := increasing_entryOfList pairs
    exact ⟨hincreasing, fun member h => proper_of_pairsOf members hpairs member (hmem member h)⟩
  | .null, _, h | .bool _, _, h | .number _, _, h | .string _, _, h | .array _, _, h => by cases h

/-- The values of named members denote proper declarations. -/
private theorem proper_of_pairsOf : ∀ (members : List (Option String × Json))
    {pairs : List (String × Declaration)}, pairsOf members = some pairs →
      ∀ member ∈ pairs, member.2.Proper
  | [], _, h => by
    obtain rfl := Option.some.inj h
    simp
  | (none, _) :: _, _, h => by cases h
  | (some name, value) :: members, _, h => by
    rw [pairsOf] at h
    split at h
    · rename_i member rest hmember hrest
      obtain rfl := Option.some.inj h
      exact List.forall_mem_cons.mpr
        ⟨proper_of_ofJson? value hmember, proper_of_pairsOf members hrest⟩
    · cases h

end

/-- Proper declarations are those that documents denote. -/
theorem proper_iff {declaration : Declaration} :
    declaration.Proper ↔ ∃ document, ofJson? document = some declaration :=
  ⟨fun h => ⟨_, h.ofJson?_toJson⟩, fun ⟨document, h⟩ => proper_of_ofJson? document h⟩

/-- What is parsed from a text is proper. -/
theorem proper_of_parse {text : String} {declaration : Declaration}
    (h : parse text = some declaration) : declaration.Proper := by
  obtain ⟨document, -, h⟩ := Option.bind_eq_some_iff.mp h
  split at h
  · exact proper_of_ofJson? document h
  · cases h

end Declaration

end BinaryLayout
