import BinaryLayout.Layout.Leaf
import BinaryLayout.Proofs.Catalog.Issued

/-!
# Bit fields know where they sit

A bit field keeps the bit of its first byte at which it starts. The **seats** of a layout are its
fields with the bits at which the offsets in the nodes put them, every array standing for its first
element. In the layout of a blueprint that takes no finished composite as it is, every bit field has
the offset of its seat (`Catalog.Reachable.bitOffset_of_seat`): the fields of format strings are
made for the bits where they start, and finished ones are replaced unless they fit.
-/

namespace BinaryLayout

/-- A bit field that starts `bit` bits from the start has the offset that belongs there. -/
def Field.SitsAt : Field → Nat → Prop
  | .bits _ offset, bit => offset = bit % 8
  | _, _ => True

/-- A bit field that is made for a bit has the offset that belongs there. -/
private theorem Shape.sitsAt_field (shape : Shape) (size : Nat) (order : ByteOrder) (bit : Nat) :
    (shape.field size order bit).SitsAt bit := by
  cases shape with
  | bits => rfl
  | integer | raw => trivial

namespace Layout

/-- The field is in the layout, `bit` bits from its start, if every array stands for its first
element. -/
inductive Seat : Layout → Field → Nat → Prop
  | atom {handle : Handle} {field : Field} : Seat (.atom handle field) field 0
  | element {handle : Handle} {element : Layout} {count bitSize : Nat} {field : Field} {bit : Nat}
      (h : Seat element field bit) : Seat (.array handle element count bitSize) field bit
  | member {handle : Handle} {labels : Labels} {members : List Layout} {offsets : List Nat}
      {bitSize : Nat} {i : Nat} {member : Layout} {offset : Nat} {field : Field} {bit : Nat}
      (hm : members[i]? = some member) (ho : offsets[i]? = some offset)
      (h : Seat member field bit) :
      Seat (.group handle labels members offsets bitSize) field (offset + bit)

/-- Seats have no regard to handles. -/
theorem Seat.anonymous {layout : Layout} {field : Field} {bit : Nat} (h : layout.Seat field bit) :
    layout.anonymous.Seat field bit := by
  induction h with
  | atom => exact .atom
  | element h ih => exact .element ih
  | @member handle labels members offsets bitSize i member offset field bit hm ho h ih =>
    rw [Layout.anonymous, anonymousAll_eq]
    exact .member (by rw [List.getElem?_map, hm, Option.map_some]) ho ih

/-- All fields of a layout that starts at bit `start` sit where they belong. -/
def InSeat (layout : Layout) (start : Nat) : Prop :=
  ∀ field bit, layout.Seat field bit → field.SitsAt (start + bit)

/-- All fields of layouts laid back to back from bit `start` on sit where they belong. -/
def AllInSeat : List Layout → Nat → Prop
  | [], _ => True
  | layout :: layouts, start => layout.InSeat start ∧ AllInSeat layouts (start + layout.bitSize)

variable {start : Nat}

private theorem inSeat_atom {handle : Handle} {field : Field} (h : field.SitsAt start) :
    (atom handle field).InSeat start := by
  rintro _ _ ⟨⟩
  exact h

/-- An array stands for its first element. -/
theorem InSeat.array {handle : Handle} {element : Layout} {count bitSize : Nat}
    (h : element.InSeat start) : (array handle element count bitSize).InSeat start := by
  rintro field bit ⟨⟩
  exact h field bit ‹_›

variable {layouts : List Layout}

/-- The fields of each of the layouts sit where it comes to lie. -/
theorem AllInSeat.getElem? (h : AllInSeat layouts start) {i : Nat} {layout : Layout}
    (hi : layouts[i]? = some layout) : layout.InSeat (start + totalBits (layouts.take i)) :=
  place_of_row (fun start layouts => AllInSeat layouts start)
    (fun start layout => layout.InSeat start) (fun _ _ _ h => h) h hi

/-- In a group the fields sit as in the members laid back to back. -/
theorem AllInSeat.of_groupOf (h : AllInSeat layouts start) {handle : Handle} {labels : Labels}
    {layout : Layout} (hg : groupOf handle labels layouts = .ok layout) : layout.InSeat start := by
  obtain ⟨-, -, rfl⟩ := groupOf_eq_ok_iff.mp hg
  rintro field _ (_ | _ | @⟨_, _, _, _, _, i, member, offset, _, bit, hm, ho, hseat⟩)
  obtain ⟨hi, -⟩ := List.getElem?_eq_some_iff.mp hm
  rw [getElem?_starts hi, Nat.zero_add] at ho
  obtain rfl := Option.some.inj ho
  rw [← Nat.add_assoc]
  exact h.getElem? hm field bit hseat

end Layout

/-- The fields that are read from a text sit where they belong. -/
private theorem Format.Reads.allInSeat {dialect : Dialect} {text : List Char}
    {cursor finish : Cursor} {fields : List Field} (h : Reads dialect text cursor fields finish) :
    Layout.AllInSeat (fields.map (.atom .blank)) cursor.bit := by
  induction h with
  | nil => trivial
  | order new h ih => exact ih
  | field hc hn hs ha hb h ih => exact ⟨Layout.inSeat_atom (Shape.sitsAt_field _ _ _ _), ih⟩

namespace Blueprint

/-- The outline of fields has them where they come to lie one after the other. -/
private theorem outlineFields_inSeat {fields : List Field} {bit : Nat} {layout : Layout}
    (hf : Layout.AllInSeat (fields.map (.atom .blank)) bit)
    (h : outlineFields fields = .ok layout) : layout.InSeat bit := by
  rw [outlineFields] at h
  generalize fields.map (Layout.atom .blank) = layouts at h hf
  split at h
  · obtain rfl := Except.ok.inj h
    exact hf.1
  · exact hf.of_groupOf h

/-- A finished field sits where it is placed, or else one that does takes its place. -/
private theorem outlineFinished_inSeat {finished : Layout} (ha : finished.isAtomic = true)
    {bit : Nat} {layout : Layout} (h : outlineFinished finished bit = .ok layout) :
    layout.InSeat bit := by
  cases finished with
  | array | group => cases ha
  | atom handle field =>
    cases field with
    | integer | raw =>
      obtain rfl := Except.ok.inj h
      exact Layout.inSeat_atom trivial
    | bits width offset =>
      change (if offset = bit % 8 then _ else _) = _ at h
      split at h
      · obtain rfl := Except.ok.inj h
        exact Layout.inSeat_atom ‹offset = bit % 8›
      · obtain ⟨-, h⟩ := Outcome.check_eq_ok_iff.mp h
        obtain rfl := Except.ok.inj h
        exact Layout.inSeat_atom rfl

/-- The fields in the outlines of members sit where they belong if those of each member do wherever
it stands, provided that the finished layouts in it are fields. -/
private theorem outlineMembers_allInSeat {dialect : Dialect} {members : List Blueprint}
    (h : ∀ member ∈ members, ∀ {bit : Nat} {layout : Layout},
      (∀ finished ∈ member.finishedIn, finished.isAtomic = true) →
        member.outline dialect bit = .ok layout → layout.InSeat bit)
    (hf : ∀ finished ∈ members.flatMap finishedIn, finished.isAtomic = true) {bit : Nat}
    {layouts : List Layout} (hm : outlineMembers dialect members bit = .ok layouts) :
    Layout.AllInSeat layouts bit := by
  induction members generalizing bit layouts with
  | nil =>
    obtain rfl := Except.ok.inj hm
    trivial
  | cons member members ih =>
    obtain ⟨outline, houtline, hm⟩ := Outcome.bind_eq_ok_iff.mp hm
    obtain ⟨next, hnext, hm⟩ := Outcome.bind_eq_ok_iff.mp hm
    obtain ⟨outlines, houtlines, hm⟩ := Outcome.bind_eq_ok_iff.mp hm
    obtain rfl := Except.ok.inj hm
    obtain ⟨rfl, -⟩ := Format.advance_eq_ok_iff.mp hnext
    obtain ⟨hmember, hmembers⟩ := List.forall_mem_append.mp hf
    exact ⟨h member List.mem_cons_self hmember houtline,
      ih (fun other hmem => h other (List.mem_cons_of_mem _ hmem)) hmembers houtlines⟩

/-- The fields of an outline sit where they belong, if all finished layouts are fields. -/
theorem outline_inSeat {dialect : Dialect} (blueprint : Blueprint) {bit : Nat} {layout : Layout}
    (hf : ∀ finished ∈ blueprint.finishedIn, finished.isAtomic = true)
    (h : blueprint.outline dialect bit = .ok layout) : layout.InSeat bit := by
  induction blueprint using induction_members generalizing bit layout with
  | format text =>
    obtain ⟨parsed, hparse, h⟩ := Outcome.bind_eq_ok_iff.mp h
    obtain ⟨-, finish, hreads, -⟩ := Format.parse_eq_ok_iff.mp hparse
    exact outlineFields_inSeat hreads.allInSeat h
  | finished own => exact outlineFinished_inSeat (hf own (List.mem_singleton_self own)) h
  | array count element ih =>
    obtain ⟨outline, houtline, h⟩ := Outcome.bind_eq_ok_iff.mp h
    obtain ⟨-, -, rfl⟩ := Layout.arrayOf_eq_ok_iff.mp h
    exact (ih hf houtline).array
  | sequence members ih =>
    rw [finishedIn, finishedInAll_eq] at hf
    obtain ⟨outlines, houtlines, h⟩ := Outcome.bind_eq_ok_iff.mp h
    exact (outlineMembers_allInSeat ih hf houtlines).of_groupOf h
  | record members ih =>
    rw [finishedIn, finishedInNamed_eq] at hf
    obtain ⟨-, outlines, houtlines, h⟩ := outline_record_eq_ok_iff.mp h
    exact (outlineMembers_allInSeat ih hf houtlines).of_groupOf h

end Blueprint

/-- In the layout that a catalog with an honest history gives for a blueprint whose finished layouts
are single fields, every bit field keeps the bit of the byte at which it starts, counted from the
start of the whole. -/
theorem Catalog.Reachable.bitOffset_of_seat {catalog : Catalog} (hc : catalog.Reachable)
    {blueprint : Blueprint} (hb : ∀ finished ∈ blueprint.finishedIn, finished.isAtomic = true)
    {layout : Layout} (h : (blueprint.pack.run.run catalog).1 = .ok layout)
    {width offset bit : Nat} (hs : layout.Seat (.bits width offset) bit) :
    offset % 8 = bit % 8 ∧ offset ≤ 7 := by
  obtain ⟨outline, houtline, rfl⟩ := (hc.pack_agree blueprint).exists_ok h
  have hsits : offset = (0 + bit) % 8 :=
    blueprint.outline_inSeat hb houtline _ _ hs.anonymous
  omega

/-- Pairs of bit fields from bit 3 on. The finished field in them does not fit there; the one behind
them fits. -/
def Blueprint.pairs : Blueprint :=
  .sequence [.format "R3",
    .record [("pairs", .array 2 (.sequence [.finished (.atom ⟨9, 9⟩ (.bits 5 77)), .format "R3"]))],
    .finished (.atom ⟨9, 8⟩ (.bits 2 3))]

/-- The pairs that an empty catalog gives. -/
def Layout.pairs : Layout :=
  .group ⟨0, 5⟩ .positional
    [.atom ⟨0, 0⟩ (.bits 3 0),
      .group ⟨0, 4⟩ (.named ["pairs"])
        [.array ⟨0, 3⟩ (.group ⟨0, 2⟩ .positional
          [.atom ⟨0, 1⟩ (.bits 5 3), .atom ⟨0, 0⟩ (.bits 3 0)] [0, 5] 8) 2 16] [0] 16,
      .atom ⟨9, 8⟩ (.bits 2 3)]
    [0, 3, 19] 21

/-- The finished field in the pairs was replaced by one with offset 3; the one at bit 19 has that
offset already. -/
theorem Catalog.bitOffset_of_seat_pairs :
    (Layout.pairs.Seat (.bits 5 3) 3 ∧ 3 % 8 = 3 % 8 ∧ 3 ≤ 7) ∧
      (Layout.pairs.Seat (.bits 2 3) 19 ∧ 3 % 8 = 19 % 8 ∧ 3 ≤ 7) := by
  have hcatalog : (Catalog.empty 0 .big).Reachable := ⟨0, .big, [], by simp, rfl⟩
  have hatomic : ∀ finished ∈ Blueprint.pairs.finishedIn, finished.isAtomic = true := by
    decide
  have hpack : (Blueprint.pairs.pack.run.run (.empty 0 .big)).1 = .ok Layout.pairs := by
    decide +kernel
  have hfirst : Layout.pairs.Seat (.bits 5 3) (3 + (0 + (0 + 0))) :=
    .member (i := 1) rfl rfl (.member (i := 0) rfl rfl (.element (.member (i := 0) rfl rfl .atom)))
  have hlast : Layout.pairs.Seat (.bits 2 3) (19 + 0) := .member (i := 2) rfl rfl .atom
  exact ⟨⟨hfirst, hcatalog.bitOffset_of_seat hatomic hpack hfirst⟩,
    hlast, hcatalog.bitOffset_of_seat hatomic hpack hlast⟩

end BinaryLayout
