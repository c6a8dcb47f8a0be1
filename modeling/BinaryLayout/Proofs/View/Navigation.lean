import BinaryLayout.Proofs.View.Bounds

/-!
# Where navigation leads

From the view of a composite one goes on to the views of its members, selected by keys or taken in
turn, and from those to the views of theirs (`View.Leads`). The bit offsets of the members on the
way add up, in natural numbers, to the bit at which the last of them starts in the composite
(`Layout.descend`).

A view keeps a byte and a bit of it instead, and both are worked out again at every step, with
arithmetic that saturates. `Location.ofBit` is the location of a bit however far away it is, with
the byte cut off at the limit, and one step leads from the location of a bit to the location of
another as long as the sum of bits inside the step can be counted (`Location.advance_ofBit`). It
can be: the bits that the layout still has, counted from the start of the byte that it starts in,
only become fewer on the way down (`Leads.exists_descend`).

So navigation is exact at any depth and from any offset (`navigation_exact`). A byte that is cut off
is one that no target has, and nothing is read or written there. All of this holds of what the
constructors build from any fields, also from those that no one can read.
-/

namespace BinaryLayout

open Layout (totalBits)

/-! ### Locations of bits -/

/-- The location of the bit that so many bits of a target lie before, in the last addressable byte
if its own byte cannot be addressed. -/
def Location.ofBit (bit : Nat) : Location := ⟨min (bit / 8) Extent.limit, bit % 8⟩

/-- Going on from the location of a bit leads to the location of the bit so many bits further on. -/
theorem Location.advance_ofBit {bit bits : Nat} (h : bit % 8 + bits ≤ Extent.limit) :
    (ofBit bit).advance bits = ofBit (bit + bits) := by
  have hbyte : min (min (bit / 8) Extent.limit + (bit % 8 + bits) / 8) Extent.limit =
      min ((bit + bits) / 8) Extent.limit := by omega
  have hbit : (bit % 8 + bits) % 8 = (bit + bits) % 8 := by omega
  rw [advance, ofBit, ofBit, Extent.satAdd_of_le h, Extent.satAdd, hbyte, hbit]

/-! ### Members of members -/

namespace Layout

variable {property : Field → Prop} {layout : Layout}

/-- The layout to which positions of members lead, and the sum of the bit offsets of these
members. -/
def descend : Layout → List Nat → Option (Layout × Nat)
  | layout, [] => some (layout, 0)
  | layout, position :: path => do
    let (member, start) ← layout.member? position
    let (inner, offset) ← member.descend path
    return (inner, start + offset)

private theorem descend_cons {position : Nat} {path : List Nat} {member inner : Layout}
    {start offset : Nat} (hm : layout.member? position = some (member, start))
    (hi : member.descend path = some (inner, offset)) :
    layout.descend (position :: path) = some (inner, start + offset) := by
  rw [descend, hm]
  change (member.descend path).bind _ = _
  rw [hi]
  rfl

/-- Positions after other positions lead on from where those lead to. -/
theorem descend_append {front back : List Nat} {middle inner : Layout} {start offset : Nat}
    (hf : layout.descend front = some (middle, start))
    (hb : middle.descend back = some (inner, offset)) :
    layout.descend (front ++ back) = some (inner, start + offset) := by
  induction front generalizing layout start with
  | nil =>
    obtain ⟨rfl, rfl⟩ := Prod.mk.inj (Option.some.inj hf)
    rw [List.nil_append, hb, Nat.zero_add]
  | cons position front ih =>
    obtain ⟨⟨member, first⟩, hm, hf⟩ := Option.bind_eq_some_iff.mp hf
    obtain ⟨⟨inside, rest⟩, hi, hpair⟩ := Option.bind_eq_some_iff.mp hf
    obtain ⟨rfl, rfl⟩ := Prod.mk.inj (Option.some.inj hpair)
    rw [List.cons_append, descend_cons hm (ih hi), Nat.add_assoc]

/-- The constructors build the packet from its fields. -/
private theorem built_packet : packet.Built fun _ => True := by
  let state : Layout := .group ⟨0, 3⟩ .positional
    [.atom ⟨0, 1⟩ (.bits 1 0), .atom ⟨0, 2⟩ (.bits 7 1)] [0, 1] 8
  let points : Layout := .array ⟨0, 5⟩ (.atom ⟨0, 4⟩ (.integer .signed 2 .little)) 2 32
  have hstate : Built (fun _ => True) state := by
    refine @Built.sequence _ ⟨0, 3⟩ [.atom ⟨0, 1⟩ (.bits 1 0), .atom ⟨0, 2⟩ (.bits 7 1)] _ ?_ rfl
    simp [Built.atom]
  have hpoints : Built (fun _ => True) points :=
    @Built.array _ ⟨0, 5⟩ (.atom ⟨0, 4⟩ (.integer .signed 2 .little)) _ 2 (.atom trivial) rfl
  refine @Built.record _ ⟨0, 6⟩ [("kind", .atom ⟨0, 0⟩ (.integer .unsigned 1 .big)),
    ("state", state), ("points", points)] _ ?_ (by decide)
  simp [Built.atom, hstate, hpoints]

end Layout

namespace View

/-! ### Steps -/

/-- One step from a view to the view of its member at a position: with a key that selects the
member, or by taking the members in turn. -/
inductive Step (view : View) (position : Nat) (member : View) : Prop
  | index {key : Key} (hk : positionOf? view.layout key = some position)
      (h : view.index key = .ok (some member))
  | next {members : Members} {key : Key} (hm : view.members = .ok members)
      (h : (members.drop position).head? = some (key, member))

/-- Steps lead from a view to another, to the members at the positions one after the other. -/
inductive Leads : View → List Nat → View → Prop
  | refl {view : View} : Leads view [] view
  | step {view member last : View} {position : Nat} {path : List Nat}
      (h : view.Step position member) (hl : Leads member path last) :
      Leads view (position :: path) last

variable {root view member : View} {property : Field → Prop} {position bit : Nat} {path : List Nat}

/-- Either kind of step gives the view of the member at the position. -/
theorem Step.member?_eq (h : view.Step position member) : view.member? position = some member := by
  cases h with
  | index hk h =>
    rw [View.index] at h
    split at h
    · cases h
    · have hselected := Except.ok.inj h
      rwa [hk] at hselected
  | @next members key hm h =>
    obtain ⟨count, -, hmembers⟩ := Outcome.bind_eq_ok_iff.mp hm
    obtain rfl := Except.ok.inj hmembers
    rw [Members.head?] at h
    split at h
    · -- there is a member left, so that none was passed over
      rename_i hlt
      have hposition : min (0 + position) count = position := by
        change min (0 + position) count < count at hlt
        omega
      split at h
      · rename_i selected hkey hselected
        change view.member? (min (0 + position) count) = some selected at hselected
        rw [hposition] at hselected
        rw [hselected, (Prod.mk.inj (Option.some.inj h)).2]
      · cases h
    · cases h

/-- A step leads to the location so many bits further on as the offset of the member says. -/
private theorem Step.exists_member? (h : view.Step position member) :
    ∃ start, view.layout.member? position = some (member.layout, start) ∧
      member.location = view.location.advance start := by
  obtain ⟨⟨layout, start⟩, hm, hview⟩ := Option.map_eq_some_iff.mp h.member?_eq
  exact ⟨start, by rw [hm, ← hview], by rw [← hview]⟩

/-- Steps lead from a laid layout to a laid layout. -/
theorem Leads.laid (hl : root.Leads path view) (h : root.layout.Laid property) :
    view.layout.Laid property := by
  induction hl with
  | refl => exact h
  | step hs hl ih =>
    obtain ⟨start, hm, -⟩ := hs.exists_member?
    exact ih (h.member hm).1

/-! ### Views at bits -/

/-- The layout of the view is laid, it starts at the bit, and its bits can be counted from the start
of the byte that it starts in. -/
structure StartsAt (property : Field → Prop) (view : View) (bit : Nat) : Prop where
  laid : view.layout.Laid property
  location : view.location = .ofBit bit
  countable : bit % 8 + view.layout.bitSize ≤ Extent.limit

/-- The composite at a byte offset starts at the first bit of that byte. -/
private theorem startsAt_ofLayout {layout : Layout} (hl : layout.Laid property)
    (hc : layout.isAtomic = false) {offset : Nat} (ho : offset ≤ Extent.limit) :
    (ofLayout layout offset).StartsAt property (8 * offset) := by
  have hbit : layout.bitOffset = 0 := by
    cases layout with
    | atom handle field => cases hc
    | array | group => rfl
  have hbyte : min (8 * offset / 8) Extent.limit = offset := by omega
  have hmod : 8 * offset % 8 = 0 := by omega
  refine ⟨hl, ?_, ?_⟩
  · rw [ofLayout, Location.ofBit, hbit, hbyte, hmod]
  · rw [hmod, Nat.zero_add]
    exact hl.bitSize_le_of_composite hc

/-- The bits inside of the byte and those to the start of a member can be counted together. -/
private theorem StartsAt.member_le (h : view.StartsAt property bit) {layout : Layout} {start : Nat}
    (hm : view.layout.member? position = some (layout, start)) :
    bit % 8 + start + layout.bitSize ≤ Extent.limit := by
  have hinside := (h.laid.member hm).2
  have hcountable := h.countable
  omega

/-- A step leads to the bit that the offset of the member says. -/
theorem StartsAt.step (h : view.StartsAt property bit) (hs : view.Step position member) :
    ∃ start, view.layout.member? position = some (member.layout, start) ∧
      member.StartsAt property (bit + start) := by
  obtain ⟨start, hm, hlocation⟩ := hs.exists_member?
  have hle := h.member_le hm
  refine ⟨start, hm, (h.laid.member hm).1, ?_, by omega⟩
  rw [hlocation, h.location, Location.advance_ofBit (by omega)]

/-- Steps lead to the bit that the offsets of the members add up to, and stay within the bits of the
view that they start from. -/
theorem Leads.exists_descend (hl : root.Leads path view) (h : root.StartsAt property bit) :
    ∃ offset, root.layout.descend path = some (view.layout, offset) ∧
      view.StartsAt property (bit + offset) ∧
      offset + view.layout.bitSize ≤ root.layout.bitSize := by
  induction hl generalizing bit with
  | refl => exact ⟨0, rfl, h, by omega⟩
  | step hs hl ih =>
    obtain ⟨start, hm, hmember⟩ := h.step hs
    obtain ⟨offset, hdescend, hstarts, hinside⟩ := ih hmember
    have hle := (h.laid.member hm).2
    refine ⟨start + offset, Layout.descend_cons hm hdescend, ?_, by omega⟩
    rwa [← Nat.add_assoc]

/-! ### Views that no target has -/

variable {target : List UInt8}

/-- A view in the last addressable byte is out of the bounds of every target. -/
private theorem not_inBounds_of_limit (h : view.location.byte = Extent.limit) {length : Nat}
    (hl : length < Extent.limit) : ¬ view.InBounds length := by
  rw [InBounds, h]
  omega

/-- Out of bounds nothing is written. -/
private theorem write_ne_ok (ht : target.length < Extent.limit) (hb : ¬ view.InBounds target.length)
    (value : Value) (target' : List UInt8) : view.write target value ≠ .ok target' := by
  intro hw
  rw [write] at hw
  split at hw
  · cases hw
  · obtain ⟨stored, -, hw⟩ := Outcome.bind_eq_ok_iff.mp hw
    obtain ⟨hcheck, -⟩ := Outcome.check_eq_ok_iff.mp hw
    rw [Outcome.mapError_eq_ok_iff, checkBounds_eq_error ht hb] at hcheck
    cases hcheck

/-! ### Exactness -/

/-- However far down steps lead from a built composite at any offset, the view is at the bit to
which the offsets of the members on the way add up: at that bit of its byte, and in that byte, or in
the last addressable one if it cannot be addressed. The sum of bits inside of a further step never
saturates. A view whose byte cannot be addressed is neither read nor written. The view lies within
each of those that the steps pass. -/
theorem navigation_exact {layout : Layout} {offset : Nat} (hl : layout.Built fun _ => True)
    (hc : layout.isAtomic = false) (ho : offset ≤ Extent.limit)
    (hs : (ofLayout layout offset).Leads path view) :
    ∃ sum, layout.descend path = some (view.layout, sum) ∧
      view.location.bit = (8 * offset + sum) % 8 ∧
      view.location.byte = min ((8 * offset + sum) / 8) Extent.limit ∧
      (∀ position member start, view.layout.member? position = some (member, start) →
        view.location.bit + start ≤ Extent.limit) ∧
      (Extent.limit < (8 * offset + sum) / 8 → ∀ target : List UInt8,
        target.length < Extent.limit → (∀ value, view.read target ≠ .ok value) ∧
          ∀ value target', view.write target value ≠ .ok target') ∧
      ∀ front back ancestor, path = front ++ back → (ofLayout layout offset).Leads front ancestor →
        ancestor.Leads back view → ∃ start, layout.descend front = some (ancestor.layout, start) ∧
          start ≤ sum ∧ sum + view.layout.bitSize ≤ start + ancestor.layout.bitSize := by
  have hroot := startsAt_ofLayout hl.laid hc ho
  obtain ⟨sum, hdescend, hstarts, -⟩ := hs.exists_descend hroot
  have hbit : view.location.bit = (8 * offset + sum) % 8 := by
    rw [hstarts.location, Location.ofBit]
  have hbyte : view.location.byte = min ((8 * offset + sum) / 8) Extent.limit := by
    rw [hstarts.location, Location.ofBit]
  refine ⟨sum, hdescend, hbit, hbyte, ?_, ?_, ?_⟩
  · intro position member start hm
    have hle := hstarts.member_le hm
    omega
  · intro hfar target ht
    have hlast : view.location.byte = Extent.limit := by omega
    have hbounds := not_inBounds_of_limit hlast ht
    refine ⟨fun value hread => ?_, write_ne_ok ht hbounds⟩
    rw [read_eq_error ht hbounds] at hread
    cases hread
  · rintro front back ancestor rfl hfront hback
    obtain ⟨start, hstart, hancestor, -⟩ := hfront.exists_descend hroot
    obtain ⟨inner, hinner, -, hinside⟩ := hback.exists_descend hancestor
    -- the offsets on the whole way are those on its two parts
    have hwhole := hdescend.symm.trans (Layout.descend_append hstart hinner)
    have hsum : sum = start + inner := (Prod.mk.inj (Option.some.inj hwhole)).2
    exact ⟨start, hstart, by omega, by omega⟩

theorem navigation_exact_packet :
    (ofLayout Layout.packet Extent.limit).Leads [1, 1]
        ⟨.atom ⟨0, 2⟩ (.bits 7 1), ⟨Extent.limit, 1⟩⟩ ∧
      ∃ sum, Layout.packet.descend [1, 1] = some (.atom ⟨0, 2⟩ (.bits 7 1), sum) ∧
        1 = (8 * Extent.limit + sum) % 8 ∧
        Extent.limit = min ((8 * Extent.limit + sum) / 8) Extent.limit ∧
        ∀ target : List UInt8, target.length < Extent.limit → ∀ value,
          (View.mk (.atom ⟨0, 2⟩ (.bits 7 1)) ⟨Extent.limit, 1⟩).read target ≠ .ok value := by
  -- by name to the state, and to its second member in turn: the counter, one byte too far away
  have hleads : (ofLayout Layout.packet Extent.limit).Leads [1, 1]
      ⟨.atom ⟨0, 2⟩ (.bits 7 1), ⟨Extent.limit, 1⟩⟩ :=
    .step (@Step.index _ _ _ (.name "state") rfl rfl)
      (.step (@Step.next _ _ _ _ (.index 2) rfl rfl) .refl)
  obtain ⟨sum, hdescend, hbit, hbyte, -, hfar, -⟩ :=
    navigation_exact Layout.built_packet rfl (Nat.le_refl _) hleads
  have hsum : sum = 9 := (Prod.mk.inj (Option.some.inj hdescend)).2.symm
  refine ⟨hleads, sum, hdescend, hbit, hbyte, fun target ht => (hfar ?_ target ht).1⟩
  rw [hsum, Extent.limit]
  decide

end View

end BinaryLayout
