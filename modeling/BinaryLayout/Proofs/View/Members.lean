import BinaryLayout.Proofs.View.Navigation
import BinaryLayout.Proofs.View.Fields
import Mathlib.Data.List.Nodup

/-!
# The members of a view

There are three ways from a composite to what its members hold. One takes the members in turn, one
selects a member by a key, and one reads the whole. `View.items` lists the members with their keys,
and the first two ways come down to it: taking members in turn gives the list (`take_eq`), and a key
selects the member at its position in it (`index_eq`).

A placed view is read as the values of its members in their order (`Placed.parts_value`). Whether it
is read at all is known from the last member, which ends where the whole ends
(`Seated.inBounds_of_last`). That holds also where the last member has no bits, or where locations
saturate. So the three ways agree for every composite that is reached from a layout of a catalog
(`read_index_iteration_agree`).
-/

namespace BinaryLayout

open Layout (totalBits totalBits_take_succ assemble valuesOf)

/-! ### The parts of a value -/

namespace Value

/-- The values of the members of a list or a record, in order. -/
def parts : Value → List Value
  | .list items => items
  | .record members => members.map Prod.snd
  | _ => []

variable {labels : Labels} {values : List Value}

private theorem parts_assemble (hf : labels.Fit values.length) :
    (assemble labels values).parts = values := by
  cases labels with
  | positional => rfl
  | named names => exact List.map_snd_zip (Nat.le_of_eq hf.1.symm)

/-- Among names that are paired with values, a name finds the value at its position. -/
private theorem find?_zip {names : List String} (hl : names.length = values.length)
    (name : String) : ((names.zip values).find? fun (n, _) => n == name).map Prod.snd =
      (names.findIdx? (· == name)).bind fun i => values[i]? := by
  induction names generalizing values with
  | nil => rfl
  | cons first names ih =>
    obtain ⟨value, values, rfl⟩ := List.exists_cons_of_length_eq_add_one hl.symm
    rw [List.zip_cons_cons, List.find?_cons, List.findIdx?_cons]
    by_cases hfirst : (first == name) = true
    · simp [hfirst]
    · rw [Bool.not_eq_true] at hfirst
      have hlength : names.length = values.length := Nat.succ.inj hl
      have htail := ih hlength
      simp only [hfirst, htail, Bool.false_eq_true, if_false, Option.bind_map]
      rfl

/-- A name finds in a record what the layout has at the position of the name. -/
private theorem get?_assemble {layout : Layout} (hl : layout.field? = none)
    (hf : layout.labels.Fit values.length) (name : String) :
    (assemble layout.labels values).get? name =
      (layout.position? name).bind fun i => values[i]? := by
  cases layout with
  | atom handle field => cases hl
  | array handle element count bitSize => rfl
  | group handle labels members offsets bitSize =>
    cases labels with
    | positional => rfl
    | named names => exact find?_zip hf.1 name

end Value

namespace View

variable {view member : View} {property : Field → Prop} {target : List UInt8} {length i : Nat}
  {layout : Layout}

/-! ### Members with their keys -/

/-- The key under which the member at a position is listed. -/
def keyOf (layout : Layout) (position : Nat) : Key :=
  (keyAt? layout position).getD (.index (position + 1))

/-- The members of a view in order, each with its key. -/
def items (view : View) : List (Key × View) :=
  view.layout.components.mapIdx fun i component =>
    (keyOf view.layout i, view.component i component)

theorem getElem?_items (view : View) (i : Nat) : view.items[i]? =
    view.layout.components[i]?.map fun component =>
      (keyOf view.layout i, view.component i component) :=
  List.getElem?_mapIdx

theorem length_items (view : View) : view.items.length = view.layout.components.length :=
  List.length_mapIdx

private theorem memberCount_eq (hf : view.layout.field? = none) :
    view.memberCount = .ok view.items.length := by
  obtain ⟨layout, location⟩ := view
  rw [length_items]
  cases layout with
  | atom handle field => cases hf
  | array handle element count bitSize =>
    rw [Layout.components, List.length_replicate]
    rfl
  | group handle labels members offsets bitSize => rfl

theorem member?_eq (h : view.layout.Laid property) (i : Nat) :
    view.member? i = view.items[i]?.map Prod.snd := by
  rw [member?, h.member?_eq, getElem?_items, Option.map_map, Option.map_map]
  rfl

/-- Every member has a key. -/
private theorem keyAt?_eq (h : layout.Laid property) (hi : i < layout.components.length) :
    keyAt? layout i = some (keyOf layout i) := by
  suffices hsome : (keyAt? layout i).isSome by
    obtain ⟨key, hkey⟩ := Option.isSome_iff_exists.mp hsome
    rw [keyOf, hkey, Option.getD_some]
  have hfit := h.labels_fit
  cases layout with
  | atom handle field => rfl
  | array handle element count bitSize => rfl
  | group handle labels members offsets bitSize =>
    cases labels with
    | positional => rfl
    | named names =>
      have hlt : i < names.length := hfit.1.symm ▸ hi
      change (names[i]?.map Key.name).isSome = true
      rw [Option.isSome_map, List.getElem?_eq_getElem hlt]
      rfl

/-! ### Taking members in turn -/

private theorem head?_eq (h : view.layout.Laid property) (next : Nat) :
    Members.head? ⟨view, next, view.items.length⟩ = view.items[next]? := by
  rw [Members.head?]
  split
  · rename_i hnext
    change next < view.items.length at hnext
    have hcomponent : next < view.layout.components.length := length_items view ▸ hnext
    have hitem : view.items[next]? = some (keyOf view.layout next, view.items[next].2) := by
      rw [List.getElem?_eq_getElem hnext]
      have hkey := getElem?_items view next
      rw [List.getElem?_eq_getElem hnext, List.getElem?_eq_getElem hcomponent,
        Option.map_some] at hkey
      rw [Option.some.inj hkey]
    have hmember : view.member? next = some view.items[next].2 := by
      rw [member?_eq h, hitem, Option.map_some]
    simp only [keyAt?_eq h hcomponent, hmember, hitem]
  · rename_i hnext
    exact (List.getElem?_eq_none (Nat.le_of_not_lt hnext)).symm

/-- From any position on, taking members in turn gives the items that are left. -/
theorem take_eq (h : view.layout.Laid property) (n : Nat) {next : Nat}
    (hn : next ≤ view.items.length) :
    Members.take n ⟨view, next, view.items.length⟩ = (view.items.drop next).take n := by
  induction n generalizing next with
  | zero => rfl
  | succ n ih =>
    rw [Members.take, head?_eq h]
    rcases Nat.lt_or_eq_of_le hn with hlt | rfl
    · have hdrop : Members.drop ⟨view, next, view.items.length⟩ 1 =
          ⟨view, next + 1, view.items.length⟩ := by
        rw [Members.drop, Nat.min_eq_left hlt]
      rw [List.getElem?_eq_getElem hlt, List.drop_eq_getElem_cons hlt, List.take_succ_cons, hdrop]
      exact congrArg _ (ih hlt)
    · rw [List.getElem?_eq_none (Nat.le_refl _), List.drop_length, List.take_nil]

/-! ### Selecting by keys -/

/-- A key selects the item at the position that it stands for. -/
theorem index_eq (h : view.layout.Laid property) (hf : view.layout.field? = none) (key : Key) :
    view.index key =
      .ok ((positionOf? view.layout key).bind fun i => view.items[i]?.map Prod.snd) := by
  have hatomic : ¬ view.layout.isAtomic = true := by
    rw [Layout.isAtomic, hf]
    exact Bool.false_ne_true
  rw [index, if_neg hatomic, funext (member?_eq h)]

/-- Names stand for positions of members, and a key of a member stands for its position. -/
private theorem positionOf?_keyOf (h : layout.Laid property) (hi : i < layout.components.length) :
    positionOf? layout (keyOf layout i) = some i := by
  have hfit := h.labels_fit
  cases layout with
  | atom handle field => cases hi
  | array handle element count bitSize => rfl
  | group handle labels members offsets bitSize =>
    cases labels with
    | positional => rfl
    | named names =>
      have hlt : i < names.length := hfit.1.symm ▸ hi
      have hkey : keyOf (.group handle (.named names) members offsets bitSize) i =
          .name names[i] := by
        change (names[i]?.map Key.name).getD _ = _
        rw [List.getElem?_eq_getElem hlt]
        rfl
      rw [hkey]
      refine List.findIdx?_eq_some_iff_getElem.mpr ⟨hlt, beq_self_eq_true _, fun j hj hbeq => ?_⟩
      have hsame := (List.Nodup.getElem_inj_iff hfit.2).mp (eq_of_beq hbeq)
      omega

private theorem position?_eq_none_iff {name : String} :
    layout.position? name = none ↔ ∀ names, layout.names? = some names → name ∉ names := by
  rw [Layout.position?]
  cases layout.names? with
  | none => simp
  | some names =>
    simp only [List.findIdx?_eq_none_iff, beq_eq_false_iff_ne, Option.some.injEq, forall_eq']
    exact ⟨fun h hmem => h name hmem rfl, fun h other hmem heq => h (heq ▸ hmem)⟩

/-- A name stands for the position of a member, if it stands for any. -/
private theorem position?_lt (h : layout.Laid property) {name : String}
    (hn : layout.position? name = some i) : i < layout.components.length := by
  have hfit := h.labels_fit
  cases layout with
  | atom handle field => cases hn
  | array handle element count bitSize => cases hn
  | group handle labels members offsets bitSize =>
    cases labels with
    | positional => cases hn
    | named names =>
      obtain ⟨hlt, -⟩ := List.findIdx?_eq_some_iff_getElem.mp hn
      exact hlt.trans_eq hfit.1

/-! ### What the items are -/

/-- The items are the members of the view: as many as it has, and just those that are got by taking
its members in turn. Each of them stands at the position of its member, and is what that position,
counted from one, selects and what its own key selects. No other position selects anything, and a
name does exactly if it is the name of a member. -/
structure Lists (view : View) (items : List (Key × View)) : Prop where
  memberCount : view.memberCount = .ok items.length
  taken : ∃ members, view.members = .ok members ∧ ∀ n, members.take n = items.take n
  member : ∀ i key member, items[i]? = some (key, member) →
    view.layout.components[i]? = some member.layout ∧ keyAt? view.layout i = some key ∧
      view.index (.index (i + 1)) = .ok (some member) ∧ view.index key = .ok (some member)
  index_eq_none_iff : ∀ position,
    view.index (.index position) = .ok none ↔ position = 0 ∨ items.length < position
  name_eq_none_iff : ∀ name, view.index (.name name) = .ok none ↔
    ∀ names, view.layout.names? = some names → name ∉ names

private theorem index_index_eq (h : view.layout.Laid property) (hf : view.layout.field? = none)
    (i : Nat) :
    view.index (.index (i + 1)) = .ok (view.items[i]?.map Prod.snd) :=
  index_eq h hf (.index (i + 1))

private theorem index_name_eq (h : view.layout.Laid property) (hf : view.layout.field? = none)
    (name : String) : view.index (.name name) =
      .ok ((view.layout.position? name).bind fun i => view.items[i]?.map Prod.snd) :=
  index_eq h hf (.name name)

/-- The items of a view of a laid composite are its members. -/
theorem lists_items (h : view.layout.Laid property) (hf : view.layout.field? = none) :
    view.Lists view.items where
  memberCount := memberCount_eq hf
  taken := by
    refine ⟨⟨view, 0, view.items.length⟩, ?_, fun n => take_eq h n (Nat.zero_le _)⟩
    rw [members, memberCount_eq hf]
    rfl
  member := by
    intro i key member hitem
    have hcomponent := hitem
    rw [getElem?_items] at hcomponent
    obtain ⟨component, hi, hpair⟩ := Option.map_eq_some_iff.mp hcomponent
    obtain ⟨rfl, rfl⟩ := Prod.mk.inj hpair
    obtain ⟨hlt, -⟩ := List.getElem?_eq_some_iff.mp hi
    refine ⟨hi, keyAt?_eq h hlt, ?_, ?_⟩
    · rw [index_index_eq h hf, hitem, Option.map_some]
    · rw [index_eq h hf, positionOf?_keyOf h hlt, Option.bind_some, hitem, Option.map_some]
  index_eq_none_iff := by
    intro position
    cases position with
    | zero => exact iff_of_true (index_eq h hf (.index 0)) (.inl rfl)
    | succ i =>
      rw [index_index_eq h hf, Except.ok.injEq, Option.map_eq_none_iff, List.getElem?_eq_none_iff]
      omega
  name_eq_none_iff := by
    intro name
    rw [index_name_eq h hf, Except.ok.injEq, ← position?_eq_none_iff]
    cases hposition : view.layout.position? name with
    | none => simp
    | some i =>
      have hlt := position?_lt h hposition
      rw [← length_items] at hlt
      simp [List.getElem?_eq_getElem hlt]

/-! ### Reading the members -/

/-- There are as many values as the labels of the composite ask for. -/
theorem Placed.labels_fit (h : view.Placed target.length) : view.layout.labels.Fit
    (valuesOf view.layout.components (view.covered target)).length := by
  rw [Layout.length_valuesOf]
  exact h.laid.labels_fit

/-- The parts of the value of a placed composite are the values of its members. -/
theorem Placed.parts_value (h : view.Placed target.length) (hf : view.layout.field? = none) :
    view.items.map (fun item => item.2.read target) = (view.value target).parts.map .ok := by
  have hfit := h.labels_fit
  rw [h.value_composite hf, Value.parts_assemble hfit]
  refine List.ext_getElem? fun i => ?_
  rw [List.getElem?_map, List.getElem?_map, getElem?_items, Layout.getElem?_valuesOf]
  cases hi : view.layout.components[i]? with
  | none => rfl
  | some component =>
    rw [Option.map_some, Option.map_some, Option.map_some, Option.map_some,
      (h.component hi).1.read_eq_ok, View.value, h.covered_component hi]
    rfl

/-- A name finds in the value of a placed composite what is read through the member that it
selects. -/
theorem Placed.get?_value_iff (h : view.Placed target.length) (hf : view.layout.field? = none)
    {name : String} {part : Value} : (view.value target).get? name = some part ↔
      ∃ member, view.index (.name name) = .ok (some member) ∧ member.read target = .ok part := by
  have hfit := h.labels_fit
  have hparts := h.parts_value hf
  have hvalue := h.value_composite hf
  rw [hvalue, Value.parts_assemble hfit] at hparts
  rw [hvalue, Value.get?_assemble hf hfit, index_name_eq h.laid hf]
  cases view.layout.position? name with
  | none => simp
  | some i =>
    -- the values in a row are what the items in a row are read as
    have hread := congrArg (fun reads => reads[i]?) hparts
    simp only [List.getElem?_map] at hread
    rw [Option.bind_some, Option.bind_some]
    cases hitem : view.items[i]? with
    | none =>
      rw [hitem, Option.map_none, eq_comm, Option.map_eq_none_iff] at hread
      simp [hread]
    | some item =>
      rw [hitem, Option.map_some, eq_comm, Option.map_eq_some_iff] at hread
      obtain ⟨own, hown, hread⟩ := hread
      simp [hown, ← hread]

/-- If the last member of a seated composite is in bounds, then so is the whole: both end at one
bit, and that the member is in bounds shows that its location did not saturate. -/
theorem Seated.inBounds_of_last (h : view.Seated) (ht : length < Extent.limit)
    (hi : view.layout.components[i]? = some layout)
    (hlast : i + 1 = view.layout.components.length)
    (hb : (view.component i layout).InBounds length) : view.InBounds length := by
  have hcomposite := Layout.field?_eq_none_of_mem (List.mem_of_getElem? hi)
  have hsize := h.laid.bitSize_composite hcomposite
  have hwhole : totalBits view.layout.components =
      totalBits (view.layout.components.take i) + layout.bitSize := by
    rw [← totalBits_take_succ hi, hlast, List.take_length]
  have hcount := h.countable
  have hmember := (h.component hi).countable
  have hbit : (view.component i layout).location.bit =
      (view.location.bit + totalBits (view.layout.components.take i)) % 8 :=
    view.location.bit_advance (by omega)
  have hbyte : (view.component i layout).location.byte = min (view.location.byte +
      (view.location.bit + totalBits (view.layout.components.take i)) / 8) Extent.limit := by
    have hinside : Extent.satAdd view.location.bit
        (totalBits (view.layout.components.take i)) =
          view.location.bit + totalBits (view.layout.components.take i) :=
      Extent.satAdd_of_le (by omega)
    rw [View.component, Location.advance, hinside, Extent.satAdd]
  have hlayout : (view.component i layout).layout.bitSize = layout.bitSize := rfl
  rw [InBounds, byteSize, Extent.satAdd_of_le hmember, Extent.bytesFor, hbyte, hbit, hlayout] at hb
  rw [InBounds, byteSize, Extent.satAdd_of_le hcount, Extent.bytesFor, hsize, hwhole]
  omega

/-- A seated composite that has members can be read exactly if each of them can. -/
theorem Seated.read_iff_forall_items (h : view.Seated) (hf : view.layout.field? = none)
    (ht : target.length < Extent.limit) (hne : view.items ≠ []) :
    (∃ value, view.read target = .ok value) ↔
      ∀ item ∈ view.items, ∃ part, item.2.read target = .ok part := by
  constructor
  · intro hread item hmem
    have hb := (h.read_eq_ok_iff ht).mp hread
    have hplaced := h.placed (Nat.le_of_lt ht) hb
    have hparts := hplaced.parts_value hf
    have hitem : item.2.read target ∈ view.items.map fun item => item.2.read target :=
      List.mem_map_of_mem hmem
    rw [hparts] at hitem
    obtain ⟨part, -, hpart⟩ := List.mem_map.mp hitem
    exact ⟨part, hpart.symm⟩
  · intro hall
    have hlength := length_items view
    have hpos := List.length_pos_iff.mpr hne
    have hlt : view.layout.components.length - 1 < view.layout.components.length := by omega
    have hi := List.getElem?_eq_getElem hlt
    have hitem := getElem?_items view (view.layout.components.length - 1)
    rw [hi, Option.map_some] at hitem
    have hlast := (h.component hi).read_eq_ok_iff ht
    have hb := hlast.mp (hall _ (List.mem_of_getElem? hitem))
    exact (h.read_eq_ok_iff ht).mpr (h.inBounds_of_last ht hi (by omega) hb)

/-- Steps lead from a seated view to a seated view. -/
private theorem Seated.leads (h : view.Seated) {path : List Nat} (hl : view.Leads path member) :
    member.Seated := by
  induction hl with
  | refl => exact h
  | @step view next last position path hs hl ih =>
    have hnext := hs.member?_eq
    rw [member?_eq h.laid, getElem?_items, Option.map_map] at hnext
    obtain ⟨component, hi, rfl⟩ := Option.map_eq_some_iff.mp hnext
    exact ih (h.component hi)

/-! ### Layouts from catalogs -/

/-- Reading, selecting by keys and taking members in turn agree, for every composite to which steps
of either kind lead from a layout at any offset. Its items are its members. What is read from it has
the values of the items for its parts, in order, and a name finds in it what is read through the
member that the name selects. If it has members, it can be read exactly if all of them can. -/
theorem read_index_iteration_agree {root : Layout} {offset : Nat} {path : List Nat}
    (hl : root.Issued) (hs : (ofLayout root offset).Leads path view)
    (hc : view.layout.isAtomic = false) (ht : target.length < Extent.limit) :
    ∃ items, view.Lists items ∧
      (∀ value, view.read target = .ok value →
        items.map (fun item => item.2.read target) = value.parts.map .ok ∧
        ∀ name part, value.get? name = some part ↔
          ∃ member, view.index (.name name) = .ok (some member) ∧ member.read target = .ok part) ∧
      (items ≠ [] → ((∃ value, view.read target = .ok value) ↔
        ∀ item ∈ items, ∃ part, item.2.read target = .ok part)) := by
  have hseated := (seated_ofLayout hl.laid offset).leads hs
  have hf : view.layout.field? = none := by
    rwa [Layout.isAtomic, Option.isSome_eq_false_iff, Option.isNone_iff_eq_none] at hc
  refine ⟨view.items, lists_items hseated.laid hf, ?_, hseated.read_iff_forall_items hf ht⟩
  intro value hread
  have hb := (hseated.read_eq_ok_iff ht).mp ⟨value, hread⟩
  have hplaced := hseated.placed (Nat.le_of_lt ht) hb
  rw [hplaced.read_eq_ok] at hread
  obtain rfl := Except.ok.inj hread
  exact ⟨hplaced.parts_value hf, fun name part => hplaced.get?_value_iff hf⟩

theorem read_index_iteration_agree_packet :
    ∃ items value, (ofLayout Layout.packet 1).Lists items ∧
      (ofLayout Layout.packet 1).read [9, 3, 0x85, 1, 0, 255, 255] = .ok value ∧
      items.map (fun item => item.2.read [9, 3, 0x85, 1, 0, 255, 255]) = value.parts.map .ok ∧
      ∀ part, value.get? "state" = some part ↔
        ∃ member, (ofLayout Layout.packet 1).index (.name "state") = .ok (some member) ∧
          member.read [9, 3, 0x85, 1, 0, 255, 255] = .ok part := by
  have ht : ([9, 3, 0x85, 1, 0, 255, 255] : List UInt8).length < Extent.limit := by decide
  obtain ⟨value, hread⟩ :=
    ((seated_ofLayout Layout.issued_packet.laid 1).read_eq_ok_iff ht).mpr (by decide)
  obtain ⟨items, hlists, hvalue, -⟩ :=
    read_index_iteration_agree Layout.issued_packet .refl rfl ht
  obtain ⟨hparts, hget⟩ := hvalue value hread
  exact ⟨items, value, hlists, hread, hparts, hget "state"⟩

end View

end BinaryLayout
