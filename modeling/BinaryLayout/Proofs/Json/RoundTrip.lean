import BinaryLayout.Proofs.Json.Literals

/-!
# Reading undoes writing

A document is **definite** when every string in it denotes a text and every fraction consists of
digits. The compact form of a definite document is read as that document (`Definite.parse_compact`),
so that different definite documents have different forms. Nothing separates the parts of a document
but commas, brackets and braces; the induction therefore runs over documents with anything behind
them that ends them (`ReadsBack`).
-/

namespace BinaryLayout.Json

/-- The document can be written without loss. -/
inductive Definite : Json → Prop
  | null : Definite .null
  | bool (value : Bool) : Definite (.bool value)
  | number {literal : Number} (h : literal.WellFormed) : Definite (.number literal)
  | string (text : String) : Definite (.string (some text))
  | array {items : List Json} (h : ∀ item ∈ items, Definite item) : Definite (.array items)
  | object {members : List (Option String × Json)}
      (hn : ∀ member ∈ members, member.1.isSome = true)
      (h : ∀ member ∈ members, Definite member.2) : Definite (.object members)

theorem definite_nat (n : Nat) : (nat n).Definite := .number nofun

theorem definite_int (i : Int) : (int i).Definite := .number nofun

variable {rest cs : List Char} {fuel : Nat}

/-! ### First characters -/

private theorem isBlank_of_isDigit {c : Char} (h : c.isDigit = true) : isBlank c = false := by
  by_contra hb
  simp only [isBlank, Bool.not_eq_false, Bool.or_eq_true, decide_eq_true_eq] at hb
  rcases hb with ((rfl | rfl) | rfl) | rfl <;> cases h

/-- A document starts with a character that is neither a blank nor the end of an array. -/
theorem exists_write_eq_cons (document : Json) :
    ∃ c cs, document.write = c :: cs ∧ isBlank c = false ∧ c ≠ ']' := by
  cases document with
  | null => exact ⟨_, _, rfl, rfl, by decide⟩
  | bool value => cases value <;> exact ⟨_, _, rfl, rfl, by decide⟩
  | number literal =>
    obtain ⟨c, cs, hcs, rfl | hc⟩ := literal.exists_write_eq_cons
    · exact ⟨_, _, hcs, rfl, by decide⟩
    · refine ⟨_, _, hcs, isBlank_of_isDigit hc, ?_⟩
      rintro rfl
      cases hc
  | string text => exact ⟨_, _, rfl, rfl, by decide⟩
  | array items => cases items <;> exact ⟨_, _, rfl, rfl, by decide⟩
  | object members => cases members <;> exact ⟨_, _, rfl, rfl, by decide⟩

private theorem skipBlanks_cons {c : Char} (h : isBlank c = false) (cs : List Char) :
    skipBlanks (c :: cs) = c :: cs := by
  rw [skipBlanks, List.dropWhile_cons, h]
  rfl

/-- There are no blanks in front of a document as it is written. -/
private theorem skipBlanks_write (document : Json) (rest : List Char) :
    skipBlanks (document.write ++ rest) = document.write ++ rest := by
  obtain ⟨c, cs, hcs, hc, -⟩ := document.exists_write_eq_cons
  rw [hcs, List.cons_append, skipBlanks_cons hc]

/-! ### Steps of the reader -/

/-- An opening bracket starts an array of items, unless the array is closed at once. -/
private theorem readValue_array {c : Char} (hb : isBlank c = false) (hc : c ≠ ']') :
    readValue (fuel + 1) ('[' :: c :: cs) =
      (readItems fuel (c :: cs)).map fun (items, rest) => (array items, rest) := by
  rw [readValue, skipBlanks_cons (c := '[') rfl]
  simp only [skipBlanks_cons hb]
  split
  · rename_i heq
    exact absurd (List.cons.inj heq).1 hc
  · rfl

/-- A closing bracket behind an item ends the array. -/
private theorem readItems_last {item : Json} (h : readValue fuel cs = some (item, ']' :: rest)) :
    readItems (fuel + 1) cs = some ([item], rest) := by
  rw [readItems, h]
  rfl

/-- A comma behind an item leads to another one. -/
private theorem readItems_cons {item : Json} (h : readValue fuel cs = some (item, ',' :: rest)) :
    readItems (fuel + 1) cs =
      (readItems fuel rest).map fun (items, rest) => (item :: items, rest) := by
  rw [readItems, h]
  rfl

section

variable {text : String} {value : Json}

/-- A closing brace behind a value ends the object. -/
private theorem readMembers_last (h : readValue fuel cs = some (value, '\x7d' :: rest)) :
    readMembers (fuel + 1) (writeText text ++ ':' :: cs) = some ([(some text, value)], rest) := by
  rw [writeText_append]
  simp [readMembers, skipBlanks, isBlank, readText_flatMap, h]

/-- A comma behind a value leads to another name. -/
private theorem readMembers_cons (h : readValue fuel cs = some (value, ',' :: rest)) :
    readMembers (fuel + 1) (writeText text ++ ':' :: cs) =
      (readMembers fuel rest).map fun (members, rest) => ((some text, value) :: members, rest) := by
  rw [writeText_append]
  simp [readMembers, skipBlanks, isBlank, readText_flatMap, h]

end

/-! ### Documents in a longer text -/

/-- The document is read back from its compact form, whatever stands behind that. -/
def ReadsBack (document : Json) : Prop :=
  ∀ (fuel : Nat) (rest : List Char), document.write.length ≤ fuel → EndsDocument rest →
    readValue fuel (document.write ++ rest) = some (document, rest)

/-- At least one step is taken to read a document. -/
private theorem readsBack_of_succ {document : Json}
    (h : ∀ (fuel : Nat) (rest : List Char), document.write.length ≤ fuel + 1 →
      EndsDocument rest → readValue (fuel + 1) (document.write ++ rest) = some (document, rest)) :
    document.ReadsBack := by
  intro fuel rest hfuel hrest
  obtain ⟨c, cs, hcs, -⟩ := document.exists_write_eq_cons
  cases fuel with
  | zero => simp [hcs] at hfuel
  | succ fuel => exact h fuel rest hfuel hrest

/-- Number literals are read back. -/
private theorem readsBack_number {literal : Number} (h : literal.WellFormed) :
    (number literal).ReadsBack := by
  refine readsBack_of_succ fun fuel rest _ hrest => ?_
  -- nothing but a number starts like one
  obtain ⟨c, cs, hcs, hc⟩ := literal.exists_write_eq_cons
  have hfirst (d : Char) (ds : List Char) (heq : literal.write ++ rest = d :: ds) :
      d = '-' ∨ d.isDigit = true := by
    rw [hcs, List.cons_append] at heq
    obtain ⟨rfl, -⟩ := List.cons.inj heq
    exact hc
  rw [readValue, skipBlanks_write, write]
  split
  case h_7 => rw [readNumber_write h hrest, Option.map_some]
  all_goals
    rename_i heq
    exact absurd (hfirst _ _ heq) (by decide)

private theorem readsBack_string (text : String) : (string (some text)).ReadsBack := by
  refine readsBack_of_succ fun fuel rest _ _ => ?_
  rw [write, Option.getD_some, writeText_append]
  change (readText _).map _ = _
  rw [readText_flatMap, Option.map_some]

/-- Items that are read back are read one after the other. -/
private theorem readItems_write {item : Json} {items : List Json}
    (h : ∀ other ∈ item :: items, ReadsBack other)
    (hfuel : (item.write ++ writeItems items).length < fuel) (rest : List Char) :
    readItems fuel (item.write ++ writeItems items ++ ']' :: rest) =
      some (item :: items, rest) := by
  induction items generalizing item fuel with
  | nil =>
    obtain ⟨fuel, rfl⟩ := Nat.exists_eq_add_one_of_ne_zero (Nat.ne_zero_of_lt hfuel)
    have hitem := h item List.mem_cons_self
    rw [writeItems, List.append_nil] at hfuel ⊢
    exact readItems_last (hitem fuel _ (by omega) (endsDocument_cons (by decide) _))
  | cons next items ih =>
    obtain ⟨fuel, rfl⟩ := Nat.exists_eq_add_one_of_ne_zero (Nat.ne_zero_of_lt hfuel)
    obtain ⟨hitem, hitems⟩ := List.forall_mem_cons.mp h
    have hread := @ih fuel next hitems
    simp only [writeItems, List.length_append, List.length_cons, List.cons_append,
      List.append_assoc] at hfuel hread ⊢
    rw [readItems_cons (hitem fuel _ (by omega) (endsDocument_cons (by decide) _)),
      hread (by omega), Option.map_some]

/-- Arrays are read back if their items are. -/
private theorem readsBack_array {items : List Json} (h : ∀ item ∈ items, ReadsBack item) :
    (array items).ReadsBack := by
  refine readsBack_of_succ fun fuel rest hfuel _ => ?_
  cases items with
  | nil => rfl
  | cons item items =>
    have hread := @readItems_write fuel item items h (by simp [write] at hfuel ⊢; omega) rest
    obtain ⟨c, cs, hcs, hb, hc⟩ := item.exists_write_eq_cons
    rw [write]
    simp only [hcs, List.cons_append, List.append_assoc, List.nil_append] at hread ⊢
    rw [readValue_array hb hc, hread, Option.map_some]

/-- Members whose values are read back are read one after the other. -/
private theorem readMembers_write {text : String} {value : Json}
    {members : List (Option String × Json)} (hn : ∀ other ∈ members, other.1.isSome = true)
    (h : ∀ other ∈ (some text, value) :: members, ReadsBack other.2)
    (hfuel : (value.write ++ writeMembers members).length < fuel) (rest : List Char) :
    readMembers fuel (writeText text ++ ':' :: (value.write ++ writeMembers members ++
      '\x7d' :: rest)) = some ((some text, value) :: members, rest) := by
  induction members generalizing text value fuel with
  | nil =>
    obtain ⟨fuel, rfl⟩ := Nat.exists_eq_add_one_of_ne_zero (Nat.ne_zero_of_lt hfuel)
    have hvalue : ReadsBack value := h _ List.mem_cons_self
    rw [writeMembers, List.append_nil] at hfuel ⊢
    exact readMembers_last (hvalue fuel _ (by omega) (endsDocument_cons (by decide) _))
  | cons next members ih =>
    obtain ⟨fuel, rfl⟩ := Nat.exists_eq_add_one_of_ne_zero (Nat.ne_zero_of_lt hfuel)
    obtain ⟨hnext, hmembers⟩ := List.forall_mem_cons.mp hn
    obtain ⟨hvalue, hvalues⟩ := List.forall_mem_cons.mp h
    replace hvalue : ReadsBack value := hvalue
    obtain ⟨_ | name, other⟩ := next
    · cases hnext
    have hread := @ih fuel name other hmembers hvalues
    simp only [writeMembers, Option.getD_some, List.length_append, List.length_cons,
      List.cons_append, List.append_assoc] at hfuel hread ⊢
    rw [readMembers_cons (hvalue fuel _ (by omega) (endsDocument_cons (by decide) _)),
      hread (by omega), Option.map_some]

/-- Objects are read back if their values are and every name denotes a text. -/
private theorem readsBack_object {members : List (Option String × Json)}
    (hn : ∀ member ∈ members, member.1.isSome = true)
    (h : ∀ member ∈ members, ReadsBack member.2) : (object members).ReadsBack := by
  refine readsBack_of_succ fun fuel rest hfuel _ => ?_
  match members, hn, h with
  | [], _, _ => rfl
  | (none, value) :: members, hn, _ => cases hn _ List.mem_cons_self
  | (some text, value) :: members, hn, h =>
    have hread := @readMembers_write fuel text value members (List.forall_mem_cons.mp hn).2 h
      (by simp [write] at hfuel ⊢; omega) rest
    rw [writeText_append] at hread
    rw [write, Option.getD_some]
    simp only [List.cons_append, List.append_assoc, List.nil_append, writeText_append] at hread ⊢
    change (readMembers fuel _).map _ = _
    rw [hread, Option.map_some]

/-- Every definite document is read back, whatever stands behind it. -/
theorem Definite.readsBack {document : Json} (h : document.Definite) : document.ReadsBack := by
  induction h with
  | null => exact readsBack_of_succ fun _ _ _ _ => rfl
  | bool value => exact readsBack_of_succ fun _ _ _ _ => by cases value <;> rfl
  | number h => exact readsBack_number h
  | string text => exact readsBack_string text
  | array _ ih => exact readsBack_array ih
  | object hn _ ih => exact readsBack_object hn ih

/-- Reading the compact form of a definite document gives the document. -/
theorem Definite.parse_compact {document : Json} (h : document.Definite) :
    parse document.compact = some document := by
  have hread := h.readsBack (2 * document.write.length + 2) [] (by omega) endsDocument_nil
  rw [List.append_nil] at hread
  rw [parse, compact, String.toList_ofList, hread]
  rfl

/-- Definite documents that look the same are the same. -/
theorem Definite.compact_inj {document other : Json} (h : document.Definite)
    (ho : other.Definite) (heq : document.compact = other.compact) : document = other := by
  have hparse := h.parse_compact
  rw [heq, ho.parse_compact] at hparse
  exact (Option.some.inj hparse).symm

end BinaryLayout.Json
