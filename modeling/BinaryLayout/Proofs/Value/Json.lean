import BinaryLayout.Proofs.Json.RoundTrip
import BinaryLayout.Proofs.View.Bounds
import BinaryLayout.Value.Json

/-!
# Values of one layout are told apart by their JSON

The document of a value shows neither the kind of an integer nor whether an array was a byte string
or a list. A layout that admits the value settles both, field by field, so that no two values that
the same layout admits have the same document (`Layout.toJson_inj`). As documents of values are read
back from their texts, what is read from targets through one layout is told apart by its JSON text
(`View.json_eq_json_iff`).
-/

namespace BinaryLayout

namespace Value

/-! ### Documents of values -/

/-- The items of a list have their documents in its order. -/
private theorem itemsToJson_eq_map (items : List Value) : itemsToJson items = items.map toJson := by
  induction items with
  | nil => rfl
  | cons item items ih => rw [itemsToJson, ih, List.map_cons]

/-- The members of a record have their documents under their names, in its order. -/
theorem membersToJson_eq_map (members : List (String × Value)) :
    membersToJson members = members.map fun member => (some member.1, member.2.toJson) := by
  induction members with
  | nil => rfl
  | cons member members ih => rw [membersToJson, ih, List.map_cons]

mutual

/-- The document of a value can be written without loss. -/
theorem definite_toJson : ∀ value : Value, value.toJson.Definite
  | .bool b => .bool b
  | .int i => Json.definite_int i
  | .uint n => Json.definite_nat n
  | .bytes _ => .array (List.forall_mem_map.mpr fun b _ => Json.definite_nat b.toNat)
  | .list items => .array (definite_itemsToJson items)
  | .record members =>
    .object (fun member hmem => (definite_membersToJson members member hmem).1)
      (fun member hmem => (definite_membersToJson members member hmem).2)

/-- The documents of items can be written without loss. -/
private theorem definite_itemsToJson :
    ∀ items : List Value, ∀ item ∈ itemsToJson items, item.Definite
  | [] => nofun
  | item :: items =>
    List.forall_mem_cons.mpr ⟨item.definite_toJson, definite_itemsToJson items⟩

/-- The documents of members can be written without loss, and their names denote texts. -/
private theorem definite_membersToJson : ∀ members : List (String × Value),
    ∀ member ∈ membersToJson members, member.1.isSome = true ∧ member.2.Definite
  | [] => nofun
  | (_, value) :: members =>
    List.forall_mem_cons.mpr ⟨⟨rfl, value.definite_toJson⟩, definite_membersToJson members⟩

end

/-- Values have the same text exactly if they have the same document. -/
theorem json_eq_json_iff_toJson {value other : Value} :
    value.json = other.json ↔ value.toJson = other.toJson :=
  ⟨value.definite_toJson.compact_inj other.definite_toJson, congrArg Json.compact⟩

/-! ### What the documents do not show -/

/-- The document of a natural number is the same for either kind of integer. -/
private theorem toJson_int_natCast (n : Nat) : (int n).toJson = (uint n).toJson := by
  have hn : ¬ (n : Int) < 0 := by omega
  simp [toJson, Json.int, Json.nat, Json.Number.ofInt, Json.Number.ofNat, hn]

/-- A byte string has the document of the list of its bytes. -/
private theorem toJson_bytes (bs : List UInt8) :
    (bytes bs).toJson = (list (bs.map fun b => uint b.toNat)).toJson := by
  rw [toJson, toJson, itemsToJson_eq_map, List.map_map]
  rfl

/-! ### Documents that show the value -/

/-- The document of a truth value shows which one it is. -/
private theorem bool_inj_of_toJson {b c : Bool} (h : (bool b).toJson = (bool c).toJson) :
    b = c := by
  simpa [toJson] using h

/-- The document of an integer shows which one it is, among integers that may have a sign. -/
private theorem int_inj_of_toJson {i j : Int} (h : (int i).toJson = (int j).toJson) : i = j := by
  simp only [toJson, Json.int, Json.Number.ofInt, Json.number.injEq, Json.Number.mk.injEq,
    decide_eq_decide, and_true] at h
  omega

/-- The document of a natural number shows which one it is, among natural numbers. -/
private theorem uint_inj_of_toJson {m n : Nat} (h : (uint m).toJson = (uint n).toJson) : m = n := by
  simpa [toJson, Json.nat, Json.Number.ofNat] using h

/-- The document of a byte string shows which one it is, among byte strings. -/
private theorem bytes_inj_of_toJson {bs cs : List UInt8}
    (h : (bytes bs).toJson = (bytes cs).toJson) : bs = cs := by
  simp only [toJson, Json.array.injEq] at h
  refine List.map_injective_iff.mpr (fun b c hbc => ?_) h
  exact UInt8.toNat_inj.mp (uint_inj_of_toJson hbc)

/-- The document of a list shows those of its items. -/
private theorem map_toJson_of_list {values others : List Value}
    (h : (list values).toJson = (list others).toJson) : values.map toJson = others.map toJson := by
  simpa only [toJson, itemsToJson_eq_map, Json.array.injEq] using h

/-- The document of a record with known names shows those of its values. -/
private theorem map_toJson_of_record {names : List String} {values others : List Value}
    (hv : names.length = values.length) (ho : names.length = others.length)
    (h : (record (names.zip values)).toJson = (record (names.zip others)).toJson) :
    values.map toJson = others.map toJson := by
  simp only [toJson, membersToJson_eq_map, Json.object.injEq] at h
  have hdocuments := congrArg (List.map Prod.snd) h
  rw [List.map_map, List.map_map] at hdocuments
  change (names.zip values).map (toJson ∘ Prod.snd) = (names.zip others).map (toJson ∘ Prod.snd)
    at hdocuments
  rwa [← List.map_map, ← List.map_map, List.map_snd_zip (Nat.le_of_eq hv.symm),
    List.map_snd_zip (Nat.le_of_eq ho.symm)] at hdocuments

/-- Values whose documents are the same, one for one, are the same if that holds of each. -/
private theorem map_toJson_inj {values others : List Value}
    (hinj : ∀ value ∈ values, ∀ other ∈ others, value.toJson = other.toJson → value = other)
    (h : values.map toJson = others.map toJson) : values = others := by
  induction values generalizing others with
  | nil => exact (List.map_eq_nil_iff.mp h.symm).symm
  | cons value values ih =>
    obtain ⟨other, others, rfl, hvalue, hvalues⟩ := List.map_eq_cons_iff.mp h.symm
    rw [hinj value List.mem_cons_self other List.mem_cons_self hvalue.symm]
    rw [ih (fun value hv other ho => hinj value (List.mem_cons_of_mem _ hv) other
      (List.mem_cons_of_mem _ ho)) hvalues.symm]

end Value

/-! ### Guided by a layout -/

/-- The document of a value that a field admits shows which one it is. -/
theorem Field.toJson_inj {field : Field} {value other : Value} (hv : field.Admits value)
    (ho : field.Admits other) (h : value.toJson = other.toJson) : value = other := by
  cases field with
  | integer signedness size order =>
    cases signedness with
    | signed =>
      obtain ⟨i, rfl⟩ := Field.exists_int_of_admits hv
      obtain ⟨j, rfl⟩ := Field.exists_int_of_admits ho
      rw [Value.int_inj_of_toJson h]
    | unsigned =>
      obtain ⟨m, rfl⟩ := Field.exists_uint_of_admits hv
      obtain ⟨n, rfl⟩ := Field.exists_uint_of_admits ho
      rw [Value.uint_inj_of_toJson h]
  | bits width offset =>
    rcases Field.exists_of_admits_bits hv with ⟨hwidth, b, rfl⟩ | ⟨hwidth, m, rfl⟩
    · obtain ⟨-, c, rfl⟩ := (Field.exists_of_admits_bits ho).resolve_right fun h => h.1 hwidth
      rw [Value.bool_inj_of_toJson h]
    · obtain ⟨-, n, rfl⟩ := (Field.exists_of_admits_bits ho).resolve_left fun h => hwidth h.1
      rw [Value.uint_inj_of_toJson h]
  | raw size =>
    obtain ⟨bs, rfl⟩ := Field.exists_bytes_of_admits hv
    obtain ⟨cs, rfl⟩ := Field.exists_bytes_of_admits ho
    rw [Value.bytes_inj_of_toJson h]

namespace Layout

mutual

/-- The document of a value that a layout admits shows which one it is. -/
theorem toJson_inj : ∀ (layout : Layout) {value other : Value}, layout.Admits value →
    layout.Admits other → value.toJson = other.toJson → value = other
  | .atom _ _, _, _, hv, ho, h => Field.toJson_inj hv ho h
  | .array _ element _ _, _, _, hv, ho, h => by
    obtain ⟨values, rfl, hvalues⟩ := exists_list_of_admits_array hv
    obtain ⟨others, rfl, hothers⟩ := exists_list_of_admits_array ho
    rw [Value.map_toJson_inj (fun value hvalue other hother =>
      toJson_inj element (hvalues value hvalue) (hothers other hother))
      (Value.map_toJson_of_list h)]
  | .group _ .positional members _ _, _, _, hv, ho, h => by
    obtain ⟨values, rfl, hvalues⟩ := exists_list_of_admits_group hv
    obtain ⟨others, rfl, hothers⟩ := exists_list_of_admits_group ho
    rw [toJson_inj_of_admitAll members hvalues hothers (Value.map_toJson_of_list h)]
  | .group _ (.named names) members _ _, _, _, hv, ho, h => by
    obtain ⟨values, rfl, hvlength, hvalues⟩ := exists_record_of_admits hv
    obtain ⟨others, rfl, holength, hothers⟩ := exists_record_of_admits ho
    rw [toJson_inj_of_admitAll members hvalues hothers
      (Value.map_toJson_of_record hvlength holength h)]

/-- The documents of values that members admit, one for one, show which ones they are. -/
private theorem toJson_inj_of_admitAll : ∀ (members : List Layout) {values others : List Value},
    AdmitAll members values → AdmitAll members others →
      values.map Value.toJson = others.map Value.toJson → values = others
  | [], [], [], _, _, _ => rfl
  | member :: members, value :: values, other :: others, hv, ho, h => by
    obtain ⟨hvalue, hvalues⟩ := List.cons.inj h
    rw [toJson_inj member hv.1 ho.1 hvalue, toJson_inj_of_admitAll members hv.2 ho.2 hvalues]

end

end Layout

namespace View

/-- What is read through one layout, at any offsets of any targets, has the same JSON text only if
it is the same. A text by itself may be that of several values: an integer may be of either kind,
and a byte string has the text of a list. -/
theorem json_eq_json_iff {layout : Layout} (hl : layout.Issued) {offset offset' : Nat}
    {target target' : List UInt8} (ht : target.length < Extent.limit)
    (ht' : target'.length < Extent.limit) {value value' : Value}
    (hv : (ofLayout layout offset).read target = .ok value)
    (hv' : (ofLayout layout offset').read target' = .ok value') :
    (value.json = value'.json ↔ value = value') ∧
      (∀ n : Nat, (Value.int n).json = (Value.uint n).json) ∧
      ∀ bs : List UInt8,
        (Value.bytes bs).json = (Value.list (bs.map fun b => .uint b.toNat)).json := by
  have ha := (seated_ofLayout hl.laid offset).admits_of_read ht hv
  have ha' := (seated_ofLayout hl.laid offset').admits_of_read ht' hv'
  refine ⟨?_, fun n => ?_, fun bs => ?_⟩
  · rw [Value.json_eq_json_iff_toJson]
    exact ⟨layout.toJson_inj ha ha', congrArg Value.toJson⟩
  · rw [Value.json_eq_json_iff_toJson, Value.toJson_int_natCast]
  · rw [Value.json_eq_json_iff_toJson, Value.toJson_bytes]

/-- Two packets whose flags differ, read at different offsets. -/
theorem json_eq_json_iff_packet :
    ∃ value value', (ofLayout Layout.packet 0).read [3, 0x85, 1, 0, 255, 255] = .ok value ∧
      (ofLayout Layout.packet 1).read [9, 3, 5, 1, 0, 255, 255, 9] = .ok value' ∧
      (value.json = value'.json ↔ value = value') ∧
      (∀ n : Nat, (Value.int n).json = (Value.uint n).json) ∧
      ∀ bs : List UInt8,
        (Value.bytes bs).json = (Value.list (bs.map fun b => .uint b.toNat)).json := by
  have hread (offset : Nat) (target : List UInt8) (ht : target.length < Extent.limit)
      (hb : (ofLayout Layout.packet offset).InBounds target.length) :
      ∃ value, (ofLayout Layout.packet offset).read target = .ok value :=
    ((seated_ofLayout Layout.issued_packet.laid offset).read_eq_ok_iff ht).mpr hb
  obtain ⟨value, hv⟩ := hread 0 [3, 0x85, 1, 0, 255, 255] (by decide) (by decide)
  obtain ⟨value', hv'⟩ := hread 1 [9, 3, 5, 1, 0, 255, 255, 9] (by decide) (by decide)
  exact ⟨value, value', hv, hv',
    json_eq_json_iff Layout.issued_packet (by decide) (by decide) hv hv'⟩

end View

end BinaryLayout
