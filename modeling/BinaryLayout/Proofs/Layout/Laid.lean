import BinaryLayout.Layout.Built
import BinaryLayout.Proofs.Outcome
import Mathlib.Tactic.Ring

/-!
# Layouts laid back to back

The **components** of a composite are its members, every element of an array being one. `Laid` says
everything that the constructors of composites establish: the components start where the ones before
them end, those that are not bit packed start on byte boundaries, the kept offsets and sizes are the
ones that result, and the whole can be counted. The constructors give such layouts and no others
(`groupOf_eq_ok_iff`, `arrayOf_eq_ok_iff`), so that what is built is laid (`Built.laid`).

All that is known of offsets, sizes and alignment follows from `Laid`, and the constructors are not
looked at again.
-/

namespace BinaryLayout

namespace Field

/-- The bits of a valid field can be counted. -/
theorem Valid.countable {field : Field} (h : field.Valid) : field.Countable := by
  cases field <;> simp only [Valid, Countable, exactBitSize, Extent.limit] at * <;> omega

/-- A field whose bits can be counted has its exact size: the product does not saturate. -/
theorem Countable.bitSize_eq {field : Field} (h : field.Countable) :
    field.bitSize = field.exactBitSize := by
  cases field with
  | bits width offset => rfl
  | integer signedness size order | raw size =>
    rw [Countable, exactBitSize, Nat.mul_comm] at h
    rw [exactBitSize, Nat.mul_comm]
    exact Extent.satMul_of_le h

theorem Valid.bitSize_eq {field : Field} (h : field.Valid) :
    field.bitSize = field.exactBitSize := h.countable.bitSize_eq

end Field

/-- There is a name for each of so many members, and no name twice. -/
def Labels.Fit : Labels → Nat → Prop
  | .positional, _ => True
  | .named names, count => names.length = count ∧ names.Nodup

namespace Layout

/-! ### Equality -/

mutual

/-- Whether layouts are equal, handles included. -/
def decEq : ∀ a b : Layout, Decidable (a = b)
  | .atom handle field, .atom handle' field' =>
    decidable_of_iff (handle = handle' ∧ field = field') (by simp)
  | .array handle element count bitSize, .array handle' element' count' bitSize' =>
    have := decEq element element'
    decidable_of_iff
      (handle = handle' ∧ element = element' ∧ count = count' ∧ bitSize = bitSize') (by simp)
  | .group handle labels members offsets bitSize,
    .group handle' labels' members' offsets' bitSize' =>
    have := decEqAll members members'
    decidable_of_iff (handle = handle' ∧ labels = labels' ∧ members = members' ∧
      offsets = offsets' ∧ bitSize = bitSize') (by simp)
  | .atom .., .array .. | .atom .., .group .. | .array .., .atom .. | .array .., .group ..
  | .group .., .atom .. | .group .., .array .. => isFalse nofun

/-- Whether lists of layouts are equal. -/
def decEqAll : ∀ as bs : List Layout, Decidable (as = bs)
  | [], [] => isTrue rfl
  | a :: as, b :: bs =>
    have := decEq a b
    have := decEqAll as bs
    decidable_of_iff (a = b ∧ as = bs) (by simp)
  | [], _ :: _ | _ :: _, [] => isFalse nofun

end

instance : DecidableEq Layout := decEq

/-! ### Layouts in a row -/

/-- The number of bits of layouts laid back to back. -/
def totalBits (layouts : List Layout) : Nat := (layouts.map bitSize).sum

/-- The bit offsets of layouts laid back to back from bit `start` on. -/
def starts : Nat → List Layout → List Nat
  | _, [] => []
  | start, layout :: layouts => start :: starts (start + layout.bitSize) layouts

/-- Of layouts laid back to back from bit `start` on, those that are not bit packed start on byte
boundaries. -/
def Aligned : Nat → List Layout → Prop
  | _, [] => True
  | start, layout :: layouts =>
    (layout.isBitPacked = false → start % 8 = 0) ∧ Aligned (start + layout.bitSize) layouts

@[simp]
theorem totalBits_nil : totalBits [] = 0 := rfl

@[simp]
theorem totalBits_cons (layout : Layout) (layouts : List Layout) :
    totalBits (layout :: layouts) = layout.bitSize + totalBits layouts := rfl

@[simp]
theorem totalBits_replicate (count : Nat) (layout : Layout) :
    totalBits (List.replicate count layout) = count * layout.bitSize := by
  simp [totalBits]

@[simp]
theorem length_starts (start : Nat) (layouts : List Layout) :
    (starts start layouts).length = layouts.length := by
  induction layouts generalizing start with
  | nil => rfl
  | cons layout layouts ih => simp [starts, ih]

/-- The layout at a position starts where those before it end. -/
theorem getElem?_starts {layouts : List Layout} {i : Nat} (hi : i < layouts.length)
    (start : Nat) : (starts start layouts)[i]? = some (start + totalBits (layouts.take i)) := by
  induction layouts generalizing start i with
  | nil => simp at hi
  | cons layout layouts ih =>
    cases i with
    | zero => simp [starts]
    | succ i =>
      rw [starts, List.getElem?_cons_succ, ih (by simpa using hi), List.take_succ_cons,
        totalBits_cons, Nat.add_assoc]

/-- A component lies within the whole. -/
theorem totalBits_take_add_le {layouts : List Layout} {i : Nat} {layout : Layout}
    (h : layouts[i]? = some layout) :
    totalBits (layouts.take i) + layout.bitSize ≤ totalBits layouts := by
  induction layouts generalizing i with
  | nil => simp at h
  | cons head layouts ih =>
    cases i with
    | zero =>
      obtain rfl := Option.some.inj h
      simp
    | succ i =>
      have := ih (by simpa using h)
      rw [List.take_succ_cons, totalBits_cons, totalBits_cons]
      omega

/-- A component ends where the next one starts. -/
theorem totalBits_take_succ {layouts : List Layout} {i : Nat} {layout : Layout}
    (h : layouts[i]? = some layout) :
    totalBits (layouts.take (i + 1)) = totalBits (layouts.take i) + layout.bitSize := by
  rw [List.take_add_one, h, Option.toList_some, totalBits, List.map_append, List.sum_append]
  rfl

/-- A component ends before a later one starts. -/
theorem totalBits_take_add_le_take {layouts : List Layout} {i j : Nat} {layout : Layout}
    (h : layouts[i]? = some layout) (hij : i < j) :
    totalBits (layouts.take i) + layout.bitSize ≤ totalBits (layouts.take j) := by
  have htake : (layouts.take j)[i]? = some layout := by rwa [List.getElem?_take_of_lt hij]
  have hle := totalBits_take_add_le htake
  rwa [List.take_take, Nat.min_eq_left (Nat.le_of_lt hij)] at hle

/-- Every bit of layouts laid back to back is one of a component. -/
theorem exists_getElem?_of_lt_totalBits {layouts : List Layout} {n : Nat}
    (h : n < totalBits layouts) : ∃ i layout, layouts[i]? = some layout ∧
      totalBits (layouts.take i) ≤ n ∧ n < totalBits (layouts.take i) + layout.bitSize := by
  induction layouts generalizing n with
  | nil => exact absurd h (Nat.not_lt_zero n)
  | cons head layouts ih =>
    rcases Nat.lt_or_ge n head.bitSize with hn | hn
    · exact ⟨0, head, rfl, Nat.zero_le _, by simpa using hn⟩
    · rw [totalBits_cons] at h
      obtain ⟨i, layout, hi, hstart, hend⟩ := ih (n := n - head.bitSize) (by omega)
      refine ⟨i + 1, layout, hi, ?_, ?_⟩
      · rw [List.take_succ_cons, totalBits_cons]
        omega
      · rw [List.take_succ_cons, totalBits_cons]
        omega

/-- What is said of layouts in a row by saying it of each of them, and of the row behind it from its
end on, holds of the one at a position where those before it end. -/
theorem place_of_row (row : Nat → List Layout → Prop) (place : Nat → Layout → Prop)
    (hrow : ∀ start layout layouts, row start (layout :: layouts) →
      place start layout ∧ row (start + layout.bitSize) layouts)
    {layouts : List Layout} {start i : Nat} {layout : Layout} (h : row start layouts)
    (hi : layouts[i]? = some layout) : place (start + totalBits (layouts.take i)) layout := by
  induction layouts generalizing start i with
  | nil => simp at hi
  | cons head layouts ih =>
    obtain ⟨hhead, hlayouts⟩ := hrow start head layouts h
    cases i with
    | zero =>
      obtain rfl := Option.some.inj hi
      exact hhead
    | succ i =>
      rw [List.take_succ_cons, totalBits_cons, ← Nat.add_assoc]
      exact ih hlayouts (by simpa using hi)

/-- A component that is not bit packed starts on a byte boundary. -/
theorem Aligned.getElem? {layouts : List Layout} {start i : Nat} {layout : Layout}
    (ha : Aligned start layouts) (h : layouts[i]? = some layout)
    (hp : layout.isBitPacked = false) : (start + totalBits (layouts.take i)) % 8 = 0 :=
  place_of_row Aligned (fun start layout => layout.isBitPacked = false → start % 8 = 0)
    (fun _ _ _ h => h) ha h hp

/-- Equal layouts are aligned as soon as the second of them is. -/
theorem aligned_replicate_iff {count : Nat} {layout : Layout} :
    Aligned 0 (List.replicate count layout) ↔
      (1 < count → layout.isBitPacked = false → layout.bitSize % 8 = 0) := by
  -- from a byte boundary, strides of whole bytes lead to byte boundaries
  have hmultiple (n start : Nat) (hs : layout.isBitPacked = false → start % 8 = 0)
      (hl : layout.isBitPacked = false → layout.bitSize % 8 = 0) :
      Aligned start (List.replicate n layout) := by
    induction n generalizing start with
    | zero => trivial
    | succ n ih =>
      refine ⟨hs, ih _ fun hp => ?_⟩
      have := hs hp
      have := hl hp
      omega
  match count with
  | 0 => simp [Aligned]
  | 1 => simp [Aligned]
  | count + 2 =>
    constructor
    · intro h _
      simpa using h.2.1
    · intro h
      exact hmultiple _ _ (fun _ => rfl) (h (by omega))

/-! ### The constructors -/

/-- A layout may start at byte boundaries, and anywhere if it is bit packed. -/
theorem checkStart_eq_ok_iff {layout : Layout} {bit : Nat} :
    layout.checkStart bit = .ok () ↔ (layout.isBitPacked = false → bit % 8 = 0) := by
  rw [checkStart]
  split
  · simp_all
  · rename_i h
    simp only [true_iff]
    intro hp
    by_contra hb
    exact h ⟨hb, hp⟩

/-- Layouts can be laid out exactly when they are aligned and their end can be counted. -/
theorem layOut_eq_ok_iff {length : Nat} {layouts : List Layout} {start : Nat}
    (hstart : start ≤ Extent.limit) {result : List Nat × Nat} :
    layOut length layouts start = .ok result ↔ Aligned start layouts ∧
      start + totalBits layouts ≤ Extent.limit ∧
        result = (starts start layouts, start + totalBits layouts) := by
  induction layouts generalizing start result with
  | nil => simp [layOut, Aligned, starts, hstart, eq_comm]
  | cons layout layouts ih =>
    rw [layOut, Outcome.check_eq_ok_iff]
    simp only [checkStart_eq_ok_iff, Aligned, starts, totalBits_cons, ← Nat.add_assoc]
    cases hnext : Extent.add? start layout.bitSize with
    | none =>
      have := Extent.add?_eq_none_iff.mp hnext
      simp only [reduceCtorEq, and_false, false_iff, not_and]
      intro _ hle
      omega
    | some next =>
      obtain ⟨rfl, hle⟩ := Extent.add?_eq_some_iff.mp hnext
      simp only [Outcome.bind_eq_ok_iff, ih hle, Prod.exists]
      constructor
      · rintro ⟨ha, offsets, finish, ⟨has, hfinish, hpair⟩, hresult⟩
        obtain ⟨rfl, rfl⟩ := Prod.mk.inj hpair
        exact ⟨⟨ha, has⟩, hfinish, (Except.ok.inj hresult).symm⟩
      · rintro ⟨⟨ha, has⟩, hfinish, rfl⟩
        exact ⟨ha, _, _, ⟨has, hfinish, rfl⟩, rfl⟩

/-- Members form a group exactly when they are aligned and their end can be counted. -/
theorem groupOf_eq_ok_iff {handle : Handle} {labels : Labels} {members : List Layout}
    {layout : Layout} :
    groupOf handle labels members = .ok layout ↔ Aligned 0 members ∧
      totalBits members ≤ Extent.limit ∧
        layout = .group handle labels members (starts 0 members) (totalBits members) := by
  rw [groupOf, Outcome.bind_eq_ok_iff]
  simp only [layOut_eq_ok_iff (Nat.zero_le _), Nat.zero_add]
  constructor
  · rintro ⟨result, ⟨ha, hl, rfl⟩, h⟩
    exact ⟨ha, hl, (Except.ok.inj h).symm⟩
  · rintro ⟨ha, hl, rfl⟩
    exact ⟨_, ⟨ha, hl, rfl⟩, rfl⟩

/-- The check of the second element, apart from what follows it. -/
theorem arrayOf_eq {handle : Handle} {element : Layout} {count : Nat} :
    arrayOf handle element count =
      ((if 1 < count then element.checkStart element.bitSize else .ok ()) >>= fun _ =>
        (Extent.mul? count element.bitSize).elim
          (.error (.tooLarge (.array count element.signature)))
          fun bitSize => .ok (.array handle element count bitSize)) := by
  rw [arrayOf]
  cases Extent.mul? count element.bitSize <;> split <;> rfl

/-- Elements form an array exactly when they are aligned and their end can be counted. -/
theorem arrayOf_eq_ok_iff {handle : Handle} {element : Layout} {count : Nat} {layout : Layout} :
    arrayOf handle element count = .ok layout ↔ Aligned 0 (List.replicate count element) ∧
      count * element.bitSize ≤ Extent.limit ∧
        layout = .array handle element count (count * element.bitSize) := by
  have hcheck : (if 1 < count then element.checkStart element.bitSize else .ok ()) = .ok () ↔
      Aligned 0 (List.replicate count element) := by
    rw [aligned_replicate_iff]
    split <;> simp_all [checkStart_eq_ok_iff]
  rw [arrayOf_eq, Outcome.check_eq_ok_iff, hcheck]
  cases hsize : Extent.mul? count element.bitSize with
  | none =>
    have := Extent.mul?_eq_none_iff.mp hsize
    simp only [Option.elim_none, reduceCtorEq, and_false, false_iff, not_and]
    intro _ hle
    omega
  | some bitSize =>
    obtain ⟨rfl, hle⟩ := Extent.mul?_eq_some_iff.mp hsize
    simp only [Option.elim_some, hle, true_and, Except.ok.injEq, eq_comm]

/-! ### Names -/

/-- No name repeats if each differs from all others and from those seen before. -/
private theorem firstRepeat_eq_none_iff {seen names : List String} :
    firstRepeat seen names = none ↔ names.Nodup ∧ ∀ name ∈ names, name ∉ seen := by
  induction names generalizing seen with
  | nil => simp [firstRepeat]
  | cons name names ih =>
    rw [firstRepeat, List.nodup_cons]
    split
    · simp_all
    · rw [ih]
      constructor
      · rintro ⟨hn, hs⟩
        refine ⟨⟨fun hmem => hs name hmem (by simp), hn⟩, ?_⟩
        intro other hmem
        rcases List.mem_cons.mp hmem with rfl | hmem
        · assumption
        · exact fun hseen => hs other hmem (List.mem_cons_of_mem _ hseen)
      · rintro ⟨⟨hname, hn⟩, hs⟩
        refine ⟨hn, ?_⟩
        intro other hmem hseen
        rcases List.mem_cons.mp hseen with rfl | hseen
        · exact hname hmem
        · exact hs other (List.mem_cons_of_mem _ hmem) hseen

/-- Names can be those of a record exactly when none of them repeats. -/
theorem checkNames_eq_ok_iff {names : List String} : checkNames names = .ok () ↔ names.Nodup := by
  have h := @firstRepeat_eq_none_iff [] names
  simp only [List.not_mem_nil, not_false_eq_true, implies_true, and_true] at h
  rw [← h, checkNames]
  cases firstRepeat [] names <;> simp

/-- A record is a group under names that do not repeat. -/
theorem recordOf_eq_ok_iff {handle : Handle} {members : List (String × Layout)} {layout : Layout} :
    recordOf handle members = .ok layout ↔ (members.map Prod.fst).Nodup ∧
      groupOf handle (.named (members.map Prod.fst)) (members.map Prod.snd) = .ok layout := by
  rw [recordOf, Outcome.check_eq_ok_iff, checkNames_eq_ok_iff]

/-- Members that are put together with their names form the group of the members under the names. -/
theorem recordOf_zip {handle : Handle} {names : List String} {layouts : List Layout}
    (h : layouts.length = names.length) :
    recordOf handle (names.zip layouts) = (do
      checkNames names
      groupOf handle (.named names) layouts) := by
  rw [recordOf, List.map_fst_zip (Nat.le_of_eq h.symm), List.map_snd_zip (Nat.le_of_eq h)]

/-! ### Laid layouts -/

/-- The layouts of the components of a composite, in order. -/
def components : Layout → List Layout
  | .atom _ _ => []
  | .array _ element count _ => List.replicate count element
  | .group _ _ members _ _ => members

theorem field?_eq_some_iff {layout : Layout} {field : Field} :
    layout.field? = some field ↔ ∃ handle, layout = .atom handle field := by
  cases layout with
  | atom handle own => simp [field?]
  | array | group => simp [field?]

/-- Only composites have components. -/
theorem field?_eq_none_of_mem {layout component : Layout} (h : component ∈ layout.components) :
    layout.field? = none := by
  cases layout with
  | atom handle field => exact absurd h List.not_mem_nil
  | array handle element count bitSize => rfl
  | group handle labels members offsets bitSize => rfl

mutual

private theorem of_components {motive : Layout → Prop}
    (atom : ∀ handle field, motive (.atom handle field))
    (composite : ∀ layout, layout.field? = none →
      (∀ component ∈ layout.components, motive component) → motive layout) :
    ∀ layout, motive layout
  | .atom handle field => atom handle field
  | .array _ element _ _ => composite _ rfl fun _ hmem =>
      List.eq_of_mem_replicate hmem ▸ of_components atom composite element
  | .group _ _ members _ _ => composite _ rfl (of_components_of_mem atom composite members)

private theorem of_components_of_mem {motive : Layout → Prop}
    (atom : ∀ handle field, motive (.atom handle field))
    (composite : ∀ layout, layout.field? = none →
      (∀ component ∈ layout.components, motive component) → motive layout) :
    ∀ layouts : List Layout, ∀ layout ∈ layouts, motive layout
  | [], _, hmem => absurd hmem List.not_mem_nil
  | head :: layouts, layout, hmem => by
    rcases List.mem_cons.mp hmem with hhead | hmem
    · exact hhead ▸ of_components atom composite head
    · exact of_components_of_mem atom composite layouts layout hmem

end

/-- Induction over the tree of a layout: what holds of fields, and of a composite if it holds of its
components, holds of all layouts. -/
@[elab_as_elim]
theorem induction_components {motive : Layout → Prop} (layout : Layout)
    (atom : ∀ handle field, motive (.atom handle field))
    (composite : ∀ layout, layout.field? = none →
      (∀ component ∈ layout.components, motive component) → motive layout) : motive layout :=
  of_components atom composite layout

/-- The layout consists of fields with the property, laid back to back at every level, and the
numbers in its nodes are those that result. -/
inductive Laid (property : Field → Prop) : Layout → Prop
  | atom {handle : Handle} {field : Field} (h : property field) : Laid property (.atom handle field)
  | array {handle : Handle} {element : Layout} {count : Nat} (he : Laid property element)
      (ha : Aligned 0 (List.replicate count element))
      (hl : count * element.bitSize ≤ Extent.limit) :
      Laid property (.array handle element count (count * element.bitSize))
  | group {handle : Handle} {labels : Labels} {members : List Layout}
      (hm : ∀ member ∈ members, Laid property member) (hn : labels.Fit members.length)
      (ha : Aligned 0 members) (hl : totalBits members ≤ Extent.limit) :
      Laid property (.group handle labels members (starts 0 members) (totalBits members))

variable {property : Field → Prop} {layout : Layout}

/-- An array of a laid element is laid. -/
theorem Laid.of_arrayOf {handle : Handle} {element : Layout} {count : Nat}
    (he : Laid property element) (h : arrayOf handle element count = .ok layout) :
    Laid property layout := by
  obtain ⟨ha, hl, rfl⟩ := arrayOf_eq_ok_iff.mp h
  exact .array he ha hl

/-- A group of laid members is laid. -/
theorem Laid.of_groupOf {handle : Handle} {labels : Labels} {members : List Layout}
    (hm : ∀ member ∈ members, Laid property member) (hn : labels.Fit members.length)
    (h : groupOf handle labels members = .ok layout) : Laid property layout := by
  obtain ⟨ha, hl, rfl⟩ := groupOf_eq_ok_iff.mp h
  exact .group hm hn ha hl

/-- A sequence of laid members is laid. -/
theorem Laid.of_sequenceOf {handle : Handle} {members : List Layout}
    (hm : ∀ member ∈ members, Laid property member)
    (h : sequenceOf handle members = .ok layout) : Laid property layout := by
  have hfit : Labels.positional.Fit members.length := trivial
  exact .of_groupOf hm hfit h

/-- A record of laid members is laid. -/
theorem Laid.of_recordOf {handle : Handle} {members : List (String × Layout)}
    (hm : ∀ member ∈ members, Laid property member.2)
    (h : recordOf handle members = .ok layout) : Laid property layout := by
  obtain ⟨hn, h⟩ := recordOf_eq_ok_iff.mp h
  have hfit : (Labels.named (members.map Prod.fst)).Fit (members.map Prod.snd).length :=
    ⟨by simp, hn⟩
  exact .of_groupOf (by simpa using fun _ name hmem => hm (name, _) hmem) hfit h

/-- What the constructors build is laid back to back. -/
theorem Built.laid (h : Built property layout) : Laid property layout := by
  induction h with
  | atom h => exact .atom h
  | array _ h he => exact he.of_arrayOf h
  | sequence _ h hm => exact .of_sequenceOf hm h
  | record _ h hm => exact .of_recordOf hm h

theorem Laid.property_atom {handle : Handle} {field : Field}
    (h : Laid property (.atom handle field)) : property field := by
  cases h
  assumption

/-- The components of a laid layout are laid. -/
theorem Laid.components (h : Laid property layout) :
    ∀ component ∈ layout.components, Laid property component := by
  cases h with
  | atom h => simp [Layout.components]
  | array he _ _ => simpa [Layout.components] using fun _ => he
  | group hm _ _ _ => exact hm

/-- A laid composite has the size of its components. -/
theorem Laid.bitSize_composite (h : Laid property layout) (hf : layout.field? = none) :
    layout.bitSize = totalBits layout.components := by
  cases h with
  | atom h => simp [field?] at hf
  | array _ _ _ => exact (totalBits_replicate _ _).symm
  | group _ _ _ _ => rfl

/-- The member at a position is the component there, and it starts where those before it end. -/
theorem Laid.member?_eq (h : Laid property layout) (i : Nat) :
    layout.member? i = layout.components[i]?.map fun component =>
      (component, totalBits (layout.components.take i)) := by
  cases h with
  | atom h => rfl
  | @array handle element count he ha hl =>
    rw [member?, Layout.components]
    split
    · rename_i hi
      rw [List.getElem?_replicate_of_lt hi, Option.map_some, List.take_replicate,
        totalBits_replicate, Nat.min_eq_left (Nat.le_of_lt hi)]
    · rename_i hi
      rw [List.getElem?_eq_none (by simpa using hi), Option.map_none]
  | @group handle labels members hm hn ha hl =>
    rw [member?, Layout.components]
    rcases Nat.lt_or_ge i members.length with hi | hi
    · rw [getElem?_starts hi, Nat.zero_add, List.getElem?_eq_getElem hi, Option.map_some]
    · rw [List.getElem?_eq_none hi, Option.map_none]

/-- A member of a laid layout is laid, and lies within its bits. -/
theorem Laid.member (h : Laid property layout) {position : Nat} {member : Layout} {start : Nat}
    (hm : layout.member? position = some (member, start)) :
    Laid property member ∧ start + member.bitSize ≤ layout.bitSize := by
  rw [h.member?_eq] at hm
  obtain ⟨component, hi, hpair⟩ := Option.map_eq_some_iff.mp hm
  obtain ⟨rfl, rfl⟩ := Prod.mk.inj hpair
  have hmem := List.mem_of_getElem? hi
  rw [h.bitSize_composite (field?_eq_none_of_mem hmem)]
  exact ⟨h.components component hmem, totalBits_take_add_le hi⟩

/-- A composite may start anywhere exactly if its components may. -/
theorem isBitPacked_composite {layout : Layout} (h : layout.field? = none) :
    layout.isBitPacked = true ↔ ∀ component ∈ layout.components, component.isBitPacked = true := by
  have hall (members : List Layout) :
      allBitPacked members = true ↔ ∀ member ∈ members, member.isBitPacked = true := by
    induction members with
    | nil => simp [allBitPacked]
    | cons member members ih => simp [allBitPacked, ih]
  cases layout with
  | atom handle field => simp [field?] at h
  | array handle element count bitSize =>
    rcases Nat.eq_zero_or_pos count with rfl | hc
    · simp [isBitPacked, Layout.components]
    · simp [isBitPacked, Layout.components, List.mem_replicate, Nat.ne_of_gt hc]
  | group handle labels members offsets bitSize => exact hall members

/-- The components of a laid layout start where they may. -/
theorem Laid.aligned (h : Laid property layout) : Aligned 0 layout.components := by
  cases h with
  | atom h => trivial
  | array _ ha _ => exact ha
  | group _ _ ha _ => exact ha

/-! ### Sizes of laid layouts -/

private theorem exactBitSizes_replicate (count : Nat) (layout : Layout) :
    exactBitSizes (List.replicate count layout) = count * layout.exactBitSize := by
  induction count with
  | zero => simp [exactBitSizes]
  | succ count ih =>
    rw [List.replicate_succ, exactBitSizes, ih, Nat.succ_mul, Nat.add_comm]

/-- A composite has the bits of its components. -/
theorem exactBitSize_composite {layout : Layout} (h : layout.field? = none) :
    layout.exactBitSize = exactBitSizes layout.components := by
  cases layout with
  | atom handle field => simp [field?] at h
  | array handle element count bitSize => exact (exactBitSizes_replicate count element).symm
  | group handle labels members offsets bitSize => rfl

/-- Layouts that keep their exact sizes have as many bits as they count together. -/
theorem exactBitSizes_eq {layouts : List Layout}
    (h : ∀ layout ∈ layouts, layout.bitSize = layout.exactBitSize) :
    exactBitSizes layouts = totalBits layouts := by
  induction layouts with
  | nil => rfl
  | cons layout layouts ih =>
    rw [exactBitSizes, totalBits_cons, h layout (by simp),
      ih fun other hmem => h other (List.mem_cons_of_mem _ hmem)]

/-- A layout laid from countable fields keeps its exact size. -/
theorem Laid.bitSize_eq_of_countable (h : Laid Field.Countable layout) :
    layout.bitSize = layout.exactBitSize := by
  induction h with
  | atom h => exact h.bitSize_eq
  | array _ _ _ he => rw [bitSize, exactBitSize, he]
  | group _ _ _ _ hm => rw [bitSize, exactBitSize, exactBitSizes_eq hm]

/-- A layout laid from valid fields is laid from countable ones. -/
theorem Laid.countable (h : Laid Field.Valid layout) : Laid Field.Countable layout := by
  induction h with
  | atom h => exact .atom h.countable
  | array _ ha hl he => exact .array he ha hl
  | group _ hn ha hl hm => exact .group hm hn ha hl

/-- A layout laid from valid fields keeps its exact size. -/
theorem Laid.bitSize_eq (h : Laid Field.Valid layout) : layout.bitSize = layout.exactBitSize :=
  h.countable.bitSize_eq_of_countable

/-- The size of a layout laid from valid fields can be counted. -/
theorem Laid.bitSize_le (h : Laid Field.Valid layout) : layout.bitSize ≤ Extent.limit := by
  cases h with
  | atom h => exact h.bitSize_eq.trans_le h.countable
  | array _ _ hl => exact hl
  | group _ _ _ hl => exact hl

/-- The size of a laid composite can be counted, whatever fields it is laid from. -/
theorem Laid.bitSize_le_of_composite (h : Laid property layout) (hc : layout.isAtomic = false) :
    layout.bitSize ≤ Extent.limit := by
  cases h with
  | atom h => cases hc
  | array _ _ hl => exact hl
  | group _ _ _ hl => exact hl

end Layout

end BinaryLayout
