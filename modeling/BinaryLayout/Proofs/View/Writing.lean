import BinaryLayout.Proofs.View.Reading

/-!
# Writing a field replaces its value and nothing else

Keys lead from a view to the view of a member of a member, `View.follow`. If the view they start
from is placed, so is the one they lead to, and it covers a part of the same bits
(`Placed.follow`).

Two targets that agree outside of that part have values that agree outside of that member: the value
in the one becomes the value in the other when the value of the member is replaced
(`Placed.replace?_value`). Storing a value in a field changes the bits of the field alone
(`Placed.write_value`), so that writing through a view that keys lead to is an update of the whole
at these keys (`write_updates`).
-/

namespace BinaryLayout

open Bytes (segmentBits replaceBits)
open Layout (totalBits starts exactBitSizes assemble valuesOf)

/-! ### Replacing a part of a value -/

namespace Value

/-- The position, counted from zero, that a key selects among the members of a value. -/
def positionOf? : Value → Key → Option Nat
  | .list _, .index (position + 1) => some position
  | .record _, .index (position + 1) => some position
  | .record members, .name name => members.findIdx? fun member => member.1 == name
  | _, _ => none

/-- The member of a value at a position. -/
def member? : Value → Nat → Option Value
  | .list items, position => items[position]?
  | .record members, position => members[position]?.map Prod.snd
  | _, _ => none

/-- The value with another member at a position. -/
def setMember : Value → Nat → Value → Value
  | .list items, position, item => .list (items.set position item)
  | .record members, position, item =>
    .record (members.modify position fun member => (member.1, item))
  | value, _, _ => value

/-- The value with the part to which keys lead replaced by another, if they lead anywhere. -/
def replace? (value : Value) (keys : List Key) (new : Value) : Option Value :=
  match keys with
  | [] => some new
  | key :: keys => do
    let position ← value.positionOf? key
    let member ← value.member? position
    let member ← member.replace? keys new
    return value.setMember position member

variable {labels : Labels} {values : List Value}

private theorem map_fst_modify (members : List (String × Value)) (i : Nat) (value : Value) :
    (members.modify i fun member => (member.1, value)).map Prod.fst = members.map Prod.fst := by
  refine List.ext_getElem? fun j => ?_
  rw [List.getElem?_map, List.getElem?_modify, List.getElem?_map]
  cases members[j]? <;> simp
  split <;> rfl

private theorem map_snd_modify (members : List (String × Value)) (i : Nat) (value : Value) :
    (members.modify i fun member => (member.1, value)).map Prod.snd =
      (members.map Prod.snd).set i value := by
  refine List.ext_getElem? fun j => ?_
  rw [List.getElem?_map, List.getElem?_modify, List.getElem?_set', List.getElem?_map]
  split <;> cases members[j]? <;> simp_all

private theorem member?_assemble (hf : labels.Fit values.length) (i : Nat) :
    (assemble labels values).member? i = values[i]? := by
  cases labels with
  | positional => rfl
  | named names =>
    change ((names.zip values)[i]?).map Prod.snd = _
    rw [← List.getElem?_map, List.map_snd_zip (Nat.le_of_eq hf.1.symm)]

private theorem setMember_assemble (hf : labels.Fit values.length) (i : Nat) (value : Value) :
    (assemble labels values).setMember i value = assemble labels (values.set i value) := by
  cases labels with
  | positional => rfl
  | named names =>
    have hfst := List.map_fst_zip (Nat.le_of_eq hf.1)
    have hsnd := List.map_snd_zip (Nat.le_of_eq hf.1.symm)
    refine congrArg Value.record (List.zip_of_prod ?_ ?_)
    · rw [map_fst_modify, hfst]
    · rw [map_snd_modify, hsnd]

/-- A key selects among the members of a value as it does among those of its layout. -/
private theorem positionOf?_assemble {layout : Layout} (hl : layout.field? = none)
    (hf : layout.labels.Fit values.length) (key : Key) :
    (assemble layout.labels values).positionOf? key = View.positionOf? layout key := by
  cases layout with
  | atom handle field => simp [Layout.field?] at hl
  | array handle element count bitSize => rcases key with (_ | _) | _ <;> rfl
  | group handle labels members offsets bitSize =>
    cases labels with
    | positional => rcases key with (_ | _) | _ <;> rfl
    | named names =>
      rcases key with (_ | _) | name
      · rfl
      · rfl
      · change (names.zip values).findIdx? _ = names.findIdx? _
        conv_rhs => rw [← List.map_fst_zip (Nat.le_of_eq hf.1), List.findIdx?_map]
        rfl

/-- Replacing inside the value of a composite replaces the value of a component. -/
private theorem replace?_assemble {layout : Layout} (hl : layout.field? = none)
    (hf : layout.labels.Fit values.length) {key : Key} {keys : List Key} {i : Nat}
    (hkey : View.positionOf? layout key = some i) {old value new : Value}
    (hold : values[i]? = some old) (hvalue : old.replace? keys new = some value) :
    (assemble layout.labels values).replace? (key :: keys) new =
      some (assemble layout.labels (values.set i value)) := by
  rw [replace?, positionOf?_assemble hl hf, hkey]
  change ((assemble layout.labels values).member? i >>= _) = _
  rw [member?_assemble hf, hold]
  change (old.replace? keys new >>= _) = _
  rw [hvalue, ← setMember_assemble hf]
  rfl

end Value

/-! ### Views that keys lead to -/

namespace View

/-- The view to which keys lead, if each of them selects a member. -/
def follow : List Key → View → Except AccessError (Option View)
  | [], view => .ok (some view)
  | key :: keys, view => do
    match ← view.index key with
    | some member => member.follow keys
    | none => return none

variable {view leaf : View} {length : Nat}

/-- A key that selects a member of a view leads to the view of a component. -/
theorem index_eq_ok {property : Field → Prop} (h : view.layout.Laid property) {key : Key}
    {member : View} (hm : view.index key = .ok (some member)) :
    ∃ i layout, positionOf? view.layout key = some i ∧ view.layout.components[i]? = some layout ∧
      member = view.component i layout := by
  rw [index] at hm
  split at hm
  · cases hm
  · obtain ⟨i, hkey, hi⟩ := Option.bind_eq_some_iff.mp (Except.ok.inj hm)
    rw [View.member?, h.member?_eq, Option.map_map] at hi
    obtain ⟨layout, hlayout, rfl⟩ := Option.map_eq_some_iff.mp hi
    exact ⟨i, layout, hkey, hlayout, rfl⟩

theorem follow_cons_eq_ok {key : Key} {keys : List Key}
    (h : view.follow (key :: keys) = .ok (some leaf)) :
    ∃ member, view.index key = .ok (some member) ∧ member.follow keys = .ok (some leaf) := by
  rw [follow, Outcome.bind_eq_ok_iff] at h
  obtain ⟨selected, hm, h⟩ := h
  cases selected with
  | none => cases h
  | some member => exact ⟨member, hm, h⟩

/-- Keys lead from a placed view to a placed view that covers a part of the same bits. -/
theorem Placed.follow (h : view.Placed length) {keys : List Key}
    (hf : view.follow keys = .ok (some leaf)) :
    leaf.Placed length ∧ view.location.position ≤ leaf.location.position ∧
      leaf.location.position + leaf.layout.bitSize ≤
        view.location.position + view.layout.bitSize := by
  induction keys generalizing view with
  | nil =>
    obtain rfl := Option.some.inj (Except.ok.inj hf)
    exact ⟨h, Nat.le_refl _, Nat.le_refl _⟩
  | cons key keys ih =>
    obtain ⟨member, hm, hf⟩ := follow_cons_eq_ok hf
    obtain ⟨i, layout, -, hi, rfl⟩ := index_eq_ok h.laid hm
    obtain ⟨hplaced, hposition⟩ := h.component hi
    obtain ⟨hleaf, hstart, hend⟩ := ih hplaced hf
    have hbits := Layout.totalBits_take_add_le hi
    have hcomposite := Layout.field?_eq_none_of_mem (List.mem_of_getElem? hi)
    rw [← h.laid.bitSize_composite hcomposite] at hbits
    refine ⟨hleaf, by omega, hend.trans ?_⟩
    change _ + layout.bitSize ≤ _
    omega

/-! ### What lies outside of a view -/

variable {target target' : List UInt8}

/-- The targets have the same bits, apart from those that the view covers. -/
def AgreeOutside (view : View) (target target' : List UInt8) : Prop :=
  ∀ i, (i < view.location.position ∨ view.location.position + view.layout.bitSize ≤ i) →
    (Bytes.bits target')[i]? = (Bytes.bits target)[i]?

/-- A view that has no bit in common with another has one value in targets that agree outside of
that one. -/
theorem Placed.value_eq_of_disjoint (h : view.Placed target.length)
    (hl : target'.length = target.length) (ha : leaf.AgreeOutside target target')
    (hd : view.location.position + view.layout.bitSize ≤ leaf.location.position ∨
      leaf.location.position + leaf.layout.bitSize ≤ view.location.position) :
    view.value target' = view.value target := by
  have hfits := h.fits
  rw [h.laid.bitSize_eq] at hfits hd
  refine congrArg view.layout.ofBits ((Bytes.segmentBits_eq_iff ?_ ?_).mpr fun i hi => ha _ ?_)
  · rw [Bytes.length_bits, hl]
    exact hfits
  · rw [Bytes.length_bits]
    exact hfits
  · omega

/-- Components do not overlap. -/
theorem Placed.component_disjoint (h : view.Placed length) {i j : Nat} {layout layout' : Layout}
    (hi : view.layout.components[i]? = some layout)
    (hj : view.layout.components[j]? = some layout') (hij : i < j) :
    (view.component i layout).location.position + layout.bitSize ≤
      (view.component j layout').location.position := by
  have hbits := Layout.totalBits_take_add_le_take hi hij
  rw [(h.component hi).2, (h.component hj).2]
  omega

/-- In targets that agree outside of a part of one component, the values of the other components are
the same. -/
private theorem Placed.valuesOf_eq_set (h : view.Placed target.length)
    (hl : target'.length = target.length) (ha : leaf.AgreeOutside target target') {i : Nat}
    {layout : Layout} (hi : view.layout.components[i]? = some layout)
    (hstart : (view.component i layout).location.position ≤ leaf.location.position)
    (hend : leaf.location.position + leaf.layout.bitSize ≤
      (view.component i layout).location.position + layout.bitSize) :
    valuesOf view.layout.components (view.covered target') =
      (valuesOf view.layout.components (view.covered target)).set i
        ((view.component i layout).value target') := by
  have h' : view.Placed target'.length := hl ▸ h
  -- a component is the one that was written to, or lies before it or after it
  refine List.ext_getElem? fun j => ?_
  rw [List.getElem?_set', Layout.getElem?_valuesOf, Layout.getElem?_valuesOf]
  cases hj : view.layout.components[j]? with
  | none => split <;> rfl
  | some other =>
    rw [Option.map_some, Option.map_some, ← h'.covered_component hj, ← h.covered_component hj]
    split
    · subst j
      obtain rfl := Option.some.inj (hi.symm.trans hj)
      rfl
    · refine congrArg some ((h.component hj).1.value_eq_of_disjoint hl ha ?_)
      rcases Nat.lt_or_gt_of_ne (Ne.symm ‹i ≠ j›) with hij | hij
      · exact .inl ((h.component_disjoint hj hi hij).trans hstart)
      · exact .inr (hend.trans (h.component_disjoint hi hj hij))

/-- In targets that agree outside of the view to which keys lead, the values of the whole agree
outside of the part at these keys. -/
theorem Placed.replace?_value (h : view.Placed target.length) {keys : List Key}
    (hf : view.follow keys = .ok (some leaf)) (hl : target'.length = target.length)
    (ha : leaf.AgreeOutside target target') :
    (view.value target).replace? keys (leaf.value target') = some (view.value target') := by
  -- along the keys, from the whole down to the part
  induction keys generalizing view with
  | nil =>
    obtain rfl := Option.some.inj (Except.ok.inj hf)
    rfl
  | cons key keys ih =>
    obtain ⟨member, hm, hf⟩ := follow_cons_eq_ok hf
    obtain ⟨i, layout, hkey, hi, rfl⟩ := index_eq_ok h.laid hm
    have hplaced := (h.component hi).1
    obtain ⟨-, hstart, hend⟩ := hplaced.follow hf
    have hcomposite := Layout.field?_eq_none_of_mem (List.mem_of_getElem? hi)
    have hfit : view.layout.labels.Fit
        (valuesOf view.layout.components (view.covered target)).length := by
      rw [Layout.length_valuesOf]
      exact h.laid.labels_fit
    have hold : (valuesOf view.layout.components (view.covered target))[i]? =
        some ((view.component i layout).value target) := by
      rw [Layout.getElem?_valuesOf, hi, Option.map_some, ← h.covered_component hi]
      rfl
    have h' : view.Placed target'.length := hl ▸ h
    rw [h.value_composite hcomposite, h'.value_composite hcomposite,
      h.valuesOf_eq_set hl ha hi hstart hend]
    exact Value.replace?_assemble hcomposite hfit hkey hold (ih hplaced hf)

/-! ### Writing -/

/-- What a field encodes is written where the field lies. -/
theorem exists_write_of_liesAt {field : Field} {value : Value} {stored : Stored}
    (hf : view.layout.field? = some field) (hb : view.checkBounds target.length = .ok ())
    (hl : field.LiesAt view.location target.length) (he : field.encode value = .ok stored) :
    ∃ target', view.write target value = .ok target' ∧
      Bytes.bits target' =
        replaceBits (Bytes.bits target) view.location.position (field.pattern stored) := by
  obtain ⟨tail, hwrite, hbits⟩ := Field.write_eq_ok hl (Field.store?_of_encode he)
  have hbyte : view.location.byte ≤ target.length := by
    have hfits := hl.fits
    rw [Location.position] at hfits
    omega
  have hcheck : (view.checkBounds target.length).mapError AccessError.toStoreError = .ok () :=
    Outcome.mapError_eq_ok_iff.mpr hb
  have htail : (tailFrom target view.location.byte).mapError AccessError.toStoreError =
      .ok (target.drop view.location.byte) :=
    Outcome.mapError_eq_ok_iff.mpr (tailFrom_eq_ok_iff.mpr ⟨hbyte, rfl⟩)
  refine ⟨target.take view.location.byte ++ tail, ?_, hbits⟩
  -- each step of the write succeeds
  rw [write, hf]
  refine Outcome.bind_eq_ok_iff.mpr ⟨stored, he, Outcome.check_eq_ok_iff.mpr ⟨hcheck, ?_⟩⟩
  exact Outcome.bind_eq_ok_iff.mpr ⟨_, htail, Outcome.bind_eq_ok_iff.mpr ⟨tail, hwrite, rfl⟩⟩

/-- What a field can store is written through a placed view of the field: its bits are put into the
place of the field. -/
theorem Placed.exists_write (h : view.Placed target.length) {field : Field} {value : Value}
    {stored : Stored} (hf : view.layout.field? = some field)
    (he : field.encode value = .ok stored) :
    ∃ target', view.write target value = .ok target' ∧
      Bytes.bits target' =
        replaceBits (Bytes.bits target) view.location.position (field.pattern stored) :=
  exists_write_of_liesAt hf h.checkBounds_eq_ok (h.liesAt hf) he

/-- What a successful write through a placed view does: it puts the bits of the value into the place
of the field. -/
theorem Placed.write_eq_ok (h : view.Placed target.length) {field : Field} {value : Value}
    (hf : view.layout.field? = some field) (hw : view.write target value = .ok target') :
    ∃ stored, field.store? value = some stored ∧
      Bytes.bits target' =
        replaceBits (Bytes.bits target) view.location.position (field.pattern stored) := by
  have hencode : ∃ stored, field.encode value = .ok stored := by
    rw [write, hf] at hw
    obtain ⟨stored, hencode, -⟩ := Outcome.bind_eq_ok_iff.mp hw
    exact ⟨stored, hencode⟩
  obtain ⟨stored, hencode⟩ := hencode
  obtain ⟨written, hwritten, hbits⟩ := h.exists_write hf hencode
  obtain rfl := Except.ok.inj (hwritten.symm.trans hw)
  exact ⟨stored, Field.store?_of_encode hencode, hbits⟩

/-- A successful write changes the bits that the view covers alone, and they become those of the
canonical form of the value. -/
theorem Placed.write_value (h : view.Placed target.length) {field : Field} {value : Value}
    (hf : view.layout.field? = some field) (hw : view.write target value = .ok target') :
    target'.length = target.length ∧ view.AgreeOutside target target' ∧
      view.value target' = field.canonical value := by
  obtain ⟨stored, hstored, hbits⟩ := h.write_eq_ok hf hw
  obtain ⟨layout, location⟩ := view
  obtain ⟨handle, rfl⟩ := Layout.field?_eq_some_iff.mp hf
  have hvalid := h.laid.property_atom
  obtain ⟨hpattern, hcanonical⟩ := Field.ofBits_pattern hvalid.accessible hstored
  have hsize : (field.pattern stored).length = field.bitSize :=
    hpattern.trans hvalid.bitSize_eq.symm
  have hfits : location.position + (field.pattern stored).length ≤
      (Bytes.bits target).length := by
    rw [hsize, Bytes.length_bits]
    exact h.fits
  have hlength : target'.length = target.length :=
    Bytes.length_eq_of_bits (by rwa [← Bytes.length_bits]) hbits
  refine ⟨hlength, fun i hi => ?_, ?_⟩
  · rw [hbits]
    rcases hi with hi | hi
    · exact Bytes.getElem?_replaceBits_of_lt hfits hi
    · refine Bytes.getElem?_replaceBits_of_le hfits ?_
      rw [hsize]
      exact hi
  · have hcovered : covered ⟨.atom handle field, location⟩ target' = field.pattern stored := by
      have hsegment := Bytes.segmentBits_replaceBits hfits
      rw [hpattern] at hsegment
      rw [covered, hbits]
      exact hsegment
    rw [View.value, hcovered, Layout.ofBits_atom hpattern, hcanonical]

/-! ### Layouts from catalogs -/

/-- Writing a field of a layout, at the end of any keys, updates the layout at these keys: the
target keeps its length and all bits outside of the field, and is read as before but for the value
at the keys, which is the canonical form of the one that was written. -/
theorem write_updates {layout : Layout} {offset : Nat} {keys : List Key} {field : Field}
    {value : Value} (hl : layout.Issued) (ht : target.length ≤ Extent.limit)
    (hb : (ofLayout layout offset).InBounds target.length)
    (hk : (ofLayout layout offset).follow keys = .ok (some leaf))
    (hf : leaf.layout.field? = some field) (hw : leaf.write target value = .ok target') :
    target'.length = target.length ∧
      (∀ i, (i < 8 * leaf.location.byte + leaf.location.bit ∨
          8 * leaf.location.byte + leaf.location.bit + leaf.layout.bitSize ≤ i) →
        (Bytes.bits target')[i]? = (Bytes.bits target)[i]?) ∧
      ∃ before after, (ofLayout layout offset).read target = .ok before ∧
        (ofLayout layout offset).read target' = .ok after ∧
        before.replace? keys (field.canonical value) = some after := by
  have hroot := placed_ofLayout hl.laid ht hb
  obtain ⟨hlength, hagree, hvalue⟩ := (hroot.follow hk).1.write_value hf hw
  have hroot' : (ofLayout layout offset).Placed target'.length := hlength ▸ hroot
  refine ⟨hlength, hagree, _, _, hroot.read_eq_ok, hroot'.read_eq_ok, ?_⟩
  rw [← hvalue]
  exact hroot.replace?_value hk hlength hagree

theorem write_updates_packet :
    [9, 3, 255, 1, 0, 255, 255].length = [9, 3, 0x85, 1, 0, 255, 255].length ∧
      (∀ i, (i < 8 * 2 + 1 ∨ 8 * 2 + 1 + 7 ≤ i) →
        (Bytes.bits [9, 3, 255, 1, 0, 255, 255])[i]? =
          (Bytes.bits [9, 3, 0x85, 1, 0, 255, 255])[i]?) ∧
      ∃ before after,
        (ofLayout Layout.packet 1).read [9, 3, 0x85, 1, 0, 255, 255] = .ok before ∧
        (ofLayout Layout.packet 1).read [9, 3, 255, 1, 0, 255, 255] = .ok after ∧
        before.replace? [.name "state", .index 2] (.uint 127) = some after := by
  -- the keys lead to the counter, bit 1 of the second byte and those after it
  have hk : (ofLayout Layout.packet 1).follow [.name "state", .index 2] =
      .ok (some ⟨.atom ⟨0, 2⟩ (.bits 7 1), ⟨2, 1⟩⟩) := rfl
  have hw : (View.mk (.atom ⟨0, 2⟩ (.bits 7 1)) ⟨2, 1⟩).write [9, 3, 0x85, 1, 0, 255, 255]
      (.int 127) = .ok [9, 3, 255, 1, 0, 255, 255] := rfl
  exact write_updates Layout.issued_packet (by decide) (by decide) hk rfl hw

end View

end BinaryLayout
