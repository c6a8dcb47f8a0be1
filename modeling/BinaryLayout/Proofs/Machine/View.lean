import BinaryLayout.Machine.View
import BinaryLayout.Proofs.InPlace
import BinaryLayout.Proofs.Machine.Bytes
import BinaryLayout.Proofs.View.Navigation

/-!
# Views never trap

The numbers in the fields of a layout are not checked when it is built, so that a view may have any
size and any offset. What keeps its size, its members and its reads in range on a machine is that
sizes and locations saturate, that the constructors count the bits of every array and group, and
that an integer or a bit field is checked before its bytes are looked at. So nothing is asked of the
view that could trap, and all outcomes are those without a machine (`views_never_trap`).

A run of raw bytes is stored without such a check. It is in the target if its bits can be counted.
If they cannot, the size of the view has saturated, and is still more than any target has whose own
bits can be counted. In a longer target the run would be looked for behind the end, and storing it
traps (`write_traps`).
-/

namespace BinaryLayout

open Bytes (patterns lowBits)

namespace Machine

variable {ε : Type} {view : View} {layout : Layout} {property : Field → Prop} {position : Nat}
  {target : List UInt8} {location : Location} {field : Field} {value : Value} {stored : Stored}

/-! ### Members -/

/-- The number of bytes of a view is counted without leaving the range: the sum in it saturates. -/
theorem yields_byteSize (view : View) :
    Yields (byteSize view : Machine ε Nat) (.ok view.byteSize) :=
  yields_divCeil_eight (Extent.satAdd_le_limit _ _)

/-- The offset of an element is not beyond the end of its array, and the table of a group has an
offset for each of its members. -/
private theorem yields_layoutMember? (h : layout.Laid property) (position : Nat) :
    Yields (layoutMember? position layout : Machine ε _) (.ok (layout.member? position)) := by
  cases h with
  | atom _ => exact yields_pure none
  | @array handle element count _ _ hl =>
    rw [layoutMember?, Layout.member?]
    split
    · exact (yields_mul_of_lt ‹_› hl).then (yields_pure _)
    · exact yields_pure none
  | @group handle labels members _ _ _ _ =>
    rw [layoutMember?, Layout.member?]
    cases hm : members[position]? with
    | none => exact yields_pure none
    | some member =>
      have hstart := Layout.getElem?_starts (List.getElem?_eq_some_iff.mp hm).1 0
      rw [hstart]
      exact (yields_entry hstart).then (yields_pure _)

private theorem yields_member? (h : view.layout.Laid property) (position : Nat) :
    Yields (member? view position : Machine ε _) (.ok (view.member? position)) :=
  (yields_layoutMember? h position).then (yields_pure _)

/-- A member is found by its name or by its number, from either end. -/
theorem yields_index (h : view.layout.Laid property) (key : Key) :
    Yields (index view key) (view.index key) := by
  rw [index, View.index]
  split
  · exact yields_throw _
  · cases View.positionOf? view.layout key with
    | none => exact yields_pure none
    | some position => exact yields_member? h position

/-! ### Taking members in turn -/

/-- The number of a member counts from one, which leads past the limit at the limit alone. -/
private theorem yields_keyAt? (layout : Layout) (hp : position < Extent.limit) :
    Yields (keyAt? layout position : Machine ε _) (.ok (View.keyAt? layout position)) := by
  rw [keyAt?, View.keyAt?]
  cases layout.names? with
  | some names => exact yields_pure _
  | none => exact (yields_within hp).then (yields_pure _)

/-- The layout whose members are taken is laid, and the number of its members is one that a machine
can count with. -/
structure Counted (property : Field → Prop) (members : View.Members) : Prop where
  laid : members.view.layout.Laid property
  next_le : members.next ≤ members.count
  count_le : members.count ≤ Extent.limit

variable {members : View.Members}

theorem Counted.drop (h : Counted property members) (n : Nat) :
    Counted property (members.drop n) :=
  ⟨h.laid, Nat.min_le_right _ _, h.count_le⟩

/-- Taking a member gives it with its key, and leaves the members after it. -/
theorem yields_next (h : Counted property members) :
    Yields (next members : Machine ε _) (.ok (members.head?, members.drop 1)) := by
  obtain ⟨view, position, count⟩ := members
  obtain ⟨hlaid, hposition, hcount⟩ := h
  rw [next, View.Members.head?, View.Members.drop]
  dsimp only at *
  split
  · have hend : min (position + 1) count = position := by omega
    rw [if_neg (by omega), hend]
    exact yields_pure _
  · have hend : min (position + 1) count = position + 1 := by omega
    rw [if_pos (by omega), hend]
    refine (yields_within (by omega)).then ?_
    refine (yields_keyAt? view.layout (by omega)).then ?_
    cases View.keyAt? view.layout position with
    | none => exact yields_pure _
    | some key =>
      refine (yields_member? hlaid position).then ?_
      cases view.member? position <;> exact yields_pure _

/-- The members that are left can be taken in turn. -/
theorem yields_take (h : Counted property members) (n : Nat) :
    Yields (take n members : Machine ε _) (.ok (members.take n)) := by
  induction n generalizing members with
  | zero => exact yields_pure []
  | succ n ih =>
    rw [View.Members.take]
    refine (yields_next h).then ?_
    cases members.head? with
    | none => exact yields_pure []
    | some member => exact (ih (h.drop 1)).then (yields_pure _)

/-! ### Reading -/

/-- The check of the bounds adds the offset to the size, and takes a sum that is out of range for
one that no target reaches. -/
private theorem yields_checkBounds (view : View) (available : Nat) :
    Yields (checkBounds view available) (view.checkBounds available) := by
  refine (yields_byteSize view).then ?_
  rw [Extent.getD_add?, View.checkBounds]
  dsimp only
  split
  · exact yields_throw _
  · exact yields_pure _

/-- The bytes of the target from a location on are there if the location is. -/
private theorem yields_tailFrom (target : List UInt8) (offset : Nat) :
    Yields (ofExcept (tailFrom target offset))
      ((checkOffset target.toArray offset).map fun _ => target.drop offset) := by
  rw [tailFrom, checkOffset, List.size_toArray]
  split <;> exact yields_ofExcept _

/-- A field is read from the bytes of the target behind its location. Its size is checked before
they are taken for a word. -/
private theorem yields_readTail (field : Field) (target : List UInt8) (location : Location) :
    Yields (readTail target location (target.drop location.byte) field)
      (field.read target.toArray location) := by
  cases field with
  | integer signedness size order =>
    have hword := yields_readWord size order (target.drop location.byte)
    rw [← Bytes.readWord_take, ← window_toArray] at hword
    cases signedness with
    | signed =>
      rw [readTail, Field.read]
      refine hword.bind fun word hread => ?_
      obtain ⟨hcheck, -⟩ := Outcome.check_eq_ok_iff.mp hread
      obtain ⟨hs, -⟩ := Bytes.checkWord_eq_ok_iff.mp hcheck
      refine (yields_mul_eight (by omega)).then ?_
      exact (yields_signExtend word (by omega)).then (yields_pure _)
    | unsigned => exact hword.bind fun word _ => yields_pure _
  | bits width offset =>
    have hfield := yields_readField width location.bit (target.drop location.byte)
    rw [← Bytes.readField_take, ← window_toArray] at hfield
    exact hfield.bind fun bits _ => yields_pure _
  | raw size =>
    rw [readTail, Field.read, window_toArray, List.length_take]
    split
    · rw [if_pos (Nat.min_eq_left ‹_›)]
      exact yields_pure _
    · rw [if_neg (by omega), List.size_toArray]
      exact yields_throw _

/-- Members that can be read at every location are read at the offsets of the table, up to the first
that is refused. -/
private theorem yields_readMembersAt {members : List Layout}
    (h : ∀ member ∈ members, ∀ location,
      Yields (readAt target member location) (member.read target.toArray location))
    (offsets : List Nat) (location : Location) :
    Yields (readMembersAt target members offsets location)
      (Layout.readMembers target.toArray members offsets location) := by
  induction members generalizing offsets with
  | nil => exact yields_pure []
  | cons member members ih =>
    obtain ⟨hmember, hmembers⟩ := List.forall_mem_cons.mp h
    cases offsets with
    | nil => exact yields_pure []
    | cons offset offsets =>
      rw [readMembersAt, Layout.readMembers]
      refine (hmember _).bind fun value _ => ?_
      exact (ih hmembers offsets).bind fun values _ => yields_pure _

/-- A laid layout is read at any location: the elements of an array start before its end. -/
private theorem yields_readAt (h : layout.Laid property) (target : List UInt8)
    (location : Location) :
    Yields (readAt target layout location) (layout.read target.toArray location) := by
  induction h generalizing location with
  | @atom handle field _ =>
    rw [readAt, Layout.read]
    refine (yields_tailFrom target location.byte).bind_map fun _ _ => ?_
    exact yields_readTail field target location
  | @array handle element count _ _ hl ih =>
    rw [readAt, Layout.read]
    refine (yields_tailFrom target location.byte).bind_map fun _ _ => ?_
    refine (yields_mapM fun i hi => ?_).bind fun values _ => yields_pure _
    exact (yields_mul_of_lt (List.mem_range.mp hi) hl).then (ih _)
  | @group handle labels members _ _ _ _ ih =>
    rw [readAt, Layout.read]
    refine (yields_tailFrom target location.byte).bind_map fun _ _ => ?_
    exact (yields_readMembersAt ih _ location).bind fun values _ => yields_pure _

/-- A view is read as without a machine, and nothing in it traps, whatever the target. -/
theorem yields_read (h : view.layout.Laid property) (target : List UInt8) :
    Yields (read view target) (view.read target) :=
  (yields_checkBounds view _).bind fun _ _ => yields_readAt h target _

/-! ### Storing -/

/-- The powers of two that bound an integer of up to eight bytes are positive words. -/
private theorem yields_signedPower (hp : position < 63) :
    Yields (signedPower position : Machine ε Int) (.ok (patterns position)) := by
  have hword : patterns 64 = 2 * patterns 63 := Bytes.patterns_succ 63
  have hle := Bytes.patterns_le_patterns (Nat.le_of_lt_succ hp)
  have hle' : 2 * patterns position ≤ patterns 63 :=
    (Bytes.patterns_succ position).symm.trans_le (Bytes.patterns_le_patterns hp)
  have hpos := Bytes.patterns_pos 63
  have hsigned : toSigned (patterns position) = patterns position := by
    rw [toSigned, Bytes.signExtend]
    exact Int.bmod_eq_of_le_mul_two (by omega) (by omega)
  refine (yields_within (by omega)).then ?_
  rw [Bytes.lowBits_one_shiftLeft (by omega), hsigned]
  exact yields_pure _

/-- Whether an integer fits is found without a shift by its whole width: with 64 bits or more every
one does. -/
private theorem yields_fitsSigned (i : Int) {bits : Nat} (hb : 1 ≤ bits) :
    Yields (fitsSigned i bits : Machine ε Bool) (.ok (decide (64 ≤ bits ∨
      -(patterns (bits - 1) : Int) ≤ i ∧ i < patterns (bits - 1)))) := by
  rw [fitsSigned]
  split
  · rw [decide_eq_true (.inl ‹_›)]
    exact yields_pure _
  · have hpos := Bytes.patterns_pos 63
    refine (yields_within hb).then ?_
    refine (yields_signedPower (by omega)).then ?_
    refine (yields_within (by omega)).then ?_
    rw [decide_eq_decide.mpr (or_iff_right ‹_›), Bool.decide_and]
    exact yields_pure _

/-- Whether a number fits into some bits is found by comparing it with their mask. -/
private theorem yields_wordBelow? (value : Value) (bits : Nat) :
    Yields (wordBelow? value bits : Machine ε _) (.ok (match value.unsigned64? with
      | some n => if n ≤ Field.mask bits then some (.word n) else none
      | none => none)) := by
  rw [wordBelow?]
  cases value.unsigned64? with
  | none => exact yields_pure none
  | some n => exact (yields_mask bits).then (yields_pure _)

/-- What is to be stored is found without a trap if the field has passed its check. -/
private theorem yields_store? (hs : field.checkStorable = .ok ()) (value : Value) :
    Yields (store? field value : Machine ε _) (.ok (field.store? value)) := by
  cases field with
  | integer signedness size order =>
    have hsize : 1 ≤ size ∧ size ≤ 8 := by
      rw [Field.checkStorable, Bytes.maxWordSize] at hs
      split at hs
      · cases hs
      · omega
    have hbits : Yields (mul size 8 : Machine ε Nat) (.ok (8 * size)) :=
      yields_mul_eight (by omega)
    cases signedness with
    | signed =>
      rw [store?, Field.store?]
      cases value.signed64? with
      | none => exact yields_pure none
      | some i =>
        refine hbits.then ?_
        refine (yields_fitsSigned i (by omega)).then ?_
        simp only [decide_eq_true_eq]
        exact yields_pure _
    | unsigned =>
      rw [store?, Field.store?]
      exact hbits.then (yields_wordBelow? value _)
  | bits width offset =>
    by_cases hbool : width = 1 ∧ ∃ b, value = .bool b
    · obtain ⟨rfl, b, rfl⟩ := hbool
      exact yields_pure _
    · have hword (b : Bool) (hw : width = 1) (hv : value = .bool b) : False := hbool ⟨hw, b, hv⟩
      rw [store?, Field.store?]
      · exact yields_wordBelow? value width
      · exact hword
      · exact hword
  | raw size =>
    rw [store?, Field.store?]
    cases value.bytes? with
    | none => exact yields_pure none
    | some bytes => exact yields_pure _

private theorem yields_encode (field : Field) (value : Value) :
    Yields (encode field value) (field.encode value) := by
  rw [encode, Field.encode]
  refine (yields_ofExcept _).bind fun _ hs => ?_
  refine (yields_store? hs value).then ?_
  cases field.store? value with
  | none => exact yields_throw _
  | some stored => exact yields_pure _

/-- A value that is encoded is put in front of the bytes behind its location. A run of raw bytes
needs them to be there; the other fields are checked. -/
private theorem yields_writeTail (hs : field.store? value = some stored) {bit : Nat}
    {tail : List UInt8} (ht : ∀ size, field = .raw size → size ≤ tail.length) :
    Yields (writeTail field value stored bit tail) (field.write value stored bit tail) := by
  cases field with
  | integer signedness size order =>
    obtain ⟨word, rfl⟩ := Field.exists_word_of_store? (by simp) hs
    exact yields_writeWord word size order tail
  | bits width offset =>
    obtain ⟨word, rfl⟩ := Field.exists_word_of_store? (by simp) hs
    exact yields_writeField word width bit tail
  | raw size =>
    obtain ⟨bytes, -, hlength, rfl⟩ := Field.store?_raw_iff.mp hs
    have hrun : (tail.take size).length = size := List.length_take_of_le (ht size rfl)
    have hhead : ((tail.take size).take bytes.length).length = bytes.length :=
      List.length_take_of_le (hlength.trans_eq hrun.symm)
    refine (yields_within (ht size rfl)).then ?_
    refine (yields_within (hlength.trans_eq hrun.symm)).then ?_
    refine (yields_within hhead).then ?_
    rw [List.length_drop, hrun]
    exact yields_pure _

/-- A view is stored as without a machine in a target whose bits can be counted. -/
theorem yields_write (view : View) (ht : target.length ≤ Extent.limit / 8) (value : Value) :
    Yields (write view target value) (view.write target value) := by
  rw [write, View.write]
  cases hf : view.layout.field? with
  | none => exact yields_throw _
  | some field =>
    refine (yields_encode field value).bind fun stored hstored => ?_
    refine (yields_checkBounds view _).toStore.bind fun _ hcheck => ?_
    refine (yields_ofExcept _).bind fun tail htail => ?_
    refine (yields_writeTail (Field.store?_of_encode hstored) ?_).bind fun _ _ => yields_pure _
    rintro size rfl
    obtain ⟨-, rfl⟩ := tailFrom_eq_ok_iff.mp (Outcome.mapError_eq_ok_iff.mp htail)
    have hroom := view.hasRoom_of_le ht size hf (Outcome.mapError_eq_ok_iff.mp hcheck)
    rw [List.length_drop]
    omega

/-- In a target that has more bytes than bits can be counted of, a run of raw bytes that is longer
still passes the check of the bounds. -/
theorem write_traps {handle : Handle} {size : Nat} (ht : Extent.limit / 8 < target.length)
    (hs : target.length < size) :
    (write (View.ofLayout (.atom handle (.raw size)) 0) target (.bytes [])).run = none := by
  let view := View.ofLayout (.atom handle (.raw size)) 0
  have hencode : Field.encode (.raw size) (.bytes []) = .ok (.bytes []) := rfl
  have hbounds : view.checkBounds target.length = .ok () := by
    have hsize : Extent.satMul size 8 = Extent.limit := by
      rw [Extent.satMul]
      omega
    have hneeded : Extent.satAdd 0 (Extent.bytesFor (Extent.satAdd 0 (Extent.satMul size 8))) ≤
        target.length := by
      rw [hsize, Extent.satAdd, Extent.satAdd, Extent.bytesFor]
      rw [Extent.limit] at *
      omega
    exact if_neg (Nat.not_lt_of_le hneeded)
  have hstored := yields_encode (.raw size) (.bytes [])
  have hcheck := (yields_checkBounds view target.length).toStore
  have htail : Yields (ofExcept (.ok target) : Machine StoreError _) (.ok target) :=
    yields_ofExcept _
  rw [hencode] at hstored
  rw [hbounds] at hcheck
  refine hstored.then_trap (hcheck.then_trap (htail.then_trap ?_))
  exact bind_traps (bind_traps (within_traps (Nat.not_le_of_lt hs)))

/-! ### All that is done with a view -/

/-- Nothing that is done with the view traps, and it has the outcome that it has without a machine.
Members can be taken in turn as far as a machine can count them, and stored is in a target whose
bits it can count. -/
structure NeverTraps (view : View) : Prop where
  byteSize : Yields (byteSize view : Machine AccessError Nat) (.ok view.byteSize)
  index (key : Key) : Yields (index view key) (view.index key)
  remaining {members : View.Members} (hm : view.members = .ok members) (n : Nat) :
    Yields (remaining (members.drop n) : Machine AccessError Nat) (.ok (members.drop n).remaining)
  next {members : View.Members} (hm : view.members = .ok members)
    (hc : members.count ≤ Extent.limit) (n : Nat) :
    Yields (next (members.drop n) : Machine AccessError _)
      (.ok ((members.drop n).head?, members.drop (n + 1)))
  take {members : View.Members} (hm : view.members = .ok members)
    (hc : members.count ≤ Extent.limit) (n : Nat) :
    Yields (take n members : Machine AccessError _) (.ok (members.take n))
  read (target : List UInt8) : Yields (read view target) (view.read target)
  write {target : List UInt8} (ht : target.length < 2 ^ 61) (value : Value) :
    Yields (write view target value) (view.write target value)

/-- The members of a view, from the first one on. -/
private theorem counted_of_members (h : view.layout.Laid property) (hm : view.members = .ok members)
    (hc : members.count ≤ Extent.limit) : Counted property members := by
  obtain ⟨count, -, hmembers⟩ := Outcome.bind_eq_ok_iff.mp hm
  obtain rfl := Except.ok.inj hmembers
  exact ⟨h, Nat.zero_le _, hc⟩

private theorem drop_drop_one (members : View.Members) (n : Nat) :
    (members.drop n).drop 1 = members.drop (n + 1) := by
  rw [View.Members.drop, View.Members.drop, View.Members.drop]
  congr 1
  dsimp only
  omega

/-- Nothing that is done with a view traps, however many steps lead to it from a layout that is
built from any fields at any offset: no sum, difference or product leaves its range, no word is
moved too far, no slice reaches out of its bytes, and no number is written to bytes that cannot hold
it. What is refused is refused with a cause. The steps themselves are among the things that can be
done, so that a machine takes them as well. -/
theorem views_never_trap {layout : Layout} {offset : Nat} {path : List Nat}
    (hl : layout.Built fun _ => True) (hs : (View.ofLayout layout offset).Leads path view) :
    NeverTraps view := by
  have hlaid := hs.laid hl.laid
  refine ⟨yields_byteSize view, yields_index hlaid, ?_, ?_, ?_, yields_read hlaid, ?_⟩
  · intro members hm n
    exact yields_within (Nat.min_le_right _ _)
  · intro members hm hc n
    rw [← drop_drop_one]
    exact yields_next ((counted_of_members hlaid hm hc).drop n)
  · intro members hm hc n
    exact yields_take (counted_of_members hlaid hm hc) n
  · intro target ht value
    refine yields_write view ?_ value
    rw [Extent.limit]
    omega

/-- An integer of nine bytes, and two times 65 bits, recorded to start at the tenth bit of a
byte. -/
def unreadable : Layout :=
  .group ⟨0, 3⟩ .positional
    [.atom ⟨0, 0⟩ (.integer .signed 9 .little), .array ⟨0, 2⟩ (.atom ⟨0, 1⟩ (.bits 65 9)) 2 130]
    [0, 72] 202

private theorem built_unreadable : unreadable.Built fun _ => True := by
  have hmembers : ∀ member ∈ [Layout.atom ⟨0, 0⟩ (.integer .signed 9 .little),
      .array ⟨0, 2⟩ (.atom ⟨0, 1⟩ (.bits 65 9)) 2 130],
      Layout.Built (fun _ => True) member := by
    simp only [List.forall_mem_cons, List.not_mem_nil, false_implies, implies_true, and_true]
    exact ⟨.atom trivial,
      @Layout.Built.array _ ⟨0, 2⟩ (.atom ⟨0, 1⟩ (.bits 65 9)) _ 2 (.atom trivial) rfl⟩
  exact @Layout.Built.sequence _ ⟨0, 3⟩ _ _ hmembers rfl

/-- An element of the array at the end of the address space is beyond any target, and one near its
start is refused for its width. -/
theorem views_never_trap_unreadable :
    Yields (read ⟨.atom ⟨0, 1⟩ (.bits 65 9), ⟨Extent.limit, 1⟩⟩ [5, 6])
      (.error (.tooShort Extent.limit 2)) ∧
    Yields (write ⟨.atom ⟨0, 1⟩ (.bits 65 9), ⟨17, 1⟩⟩ (List.replicate 32 0) (.uint 7))
      (.error (.badWidth 65)) := by
  -- to the array by its number, and to its second element in turn
  have hfar : (View.ofLayout unreadable Extent.limit).Leads [1, 1]
      ⟨.atom ⟨0, 1⟩ (.bits 65 9), ⟨Extent.limit, 1⟩⟩ :=
    .step (@View.Step.index _ _ _ (.index 2) rfl rfl)
      (.step (@View.Step.next _ _ _ _ (.index 2) rfl rfl) .refl)
  have hnear : (View.ofLayout unreadable 0).Leads [1, 1]
      ⟨.atom ⟨0, 1⟩ (.bits 65 9), ⟨17, 1⟩⟩ :=
    .step (@View.Step.index _ _ _ (.index 2) rfl rfl)
      (.step (@View.Step.next _ _ _ _ (.index 2) rfl rfl) .refl)
  have hlength : (List.replicate 32 (0 : UInt8)).length < 2 ^ 61 := by decide
  exact ⟨(views_never_trap built_unreadable hfar).read _,
    (views_never_trap built_unreadable hnear).write hlength _⟩

end Machine

end BinaryLayout
