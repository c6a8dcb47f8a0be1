import BinaryLayout.Proofs.View.Reading

/-!
# An array is a sequence of copies

An array keeps its element once. It tests the start of the second element alone, finds its size by
one multiplication and its members by another, while a sequence of as many copies of the element
walks from member to member, adds their sizes up and keeps a table of where they start. The two come
to the same (`arrayOf_same_sequenceOf`): both are built, or both are refused for the same kind of
cause, and once they are built nothing that can be asked of the one is answered differently by the
other (`Interchangeable`).

The element may be any layout whose bits can be counted, as those of every layout in memory can. It
may be laid from fields that cannot be read, and there may be no elements at all.
-/

namespace BinaryLayout

namespace Layout

variable {element layout : Layout} {count length start bit : Nat} {handle : Handle}
  {layouts : List Layout} {labels : Labels}

/-! ### Refusals -/

/-- A layout that is not bit packed is refused inside of a byte. -/
private theorem checkStart_eq_misaligned (hp : layout.isBitPacked = false) (hb : bit % 8 ≠ 0) :
    layout.checkStart bit = .error (.misaligned layout.signature (bit % 8)) :=
  if_pos ⟨hb, hp⟩

/-- Layouts that are aligned are refused only for their end, and as too large. -/
private theorem layOut_eq_tooLarge (ha : Aligned start layouts) (hs : start ≤ Extent.limit)
    (hl : Extent.limit < start + totalBits layouts) :
    layOut length layouts start = .error (.tooLarge (.group length)) := by
  induction layouts generalizing start with
  | nil =>
    rw [totalBits_nil] at hl
    omega
  | cons layout layouts ih =>
    rw [totalBits_cons, ← Nat.add_assoc] at hl
    rw [layOut, checkStart_eq_ok_iff.mpr ha.1]
    cases hnext : Extent.add? start layout.bitSize with
    | none => rfl
    | some next =>
      obtain ⟨rfl, hle⟩ := Extent.add?_eq_some_iff.mp hnext
      change (layOut length layouts (start + layout.bitSize) >>= _) = _
      rw [ih ha.2 hle hl]
      rfl

/-- Aligned members whose end cannot be counted are refused as too large. -/
private theorem groupOf_eq_tooLarge (ha : Aligned 0 layouts)
    (hl : Extent.limit < totalBits layouts) :
    groupOf handle labels layouts = .error (.tooLarge (.group layouts.length)) := by
  have hend : Extent.limit < 0 + totalBits layouts := by rwa [Nat.zero_add]
  rw [groupOf, layOut_eq_tooLarge ha (Nat.zero_le _) hend]
  rfl

/-- Aligned elements whose end cannot be counted are refused as too large. -/
private theorem arrayOf_eq_tooLarge (ha : Aligned 0 (List.replicate count element))
    (hl : Extent.limit < count * element.bitSize) :
    arrayOf handle element count = .error (.tooLarge (.array count element.signature)) := by
  have hcheck : (if 1 < count then element.checkStart element.bitSize else .ok ()) = .ok () := by
    split
    · exact checkStart_eq_ok_iff.mpr (aligned_replicate_iff.mp ha ‹_›)
    · rfl
  rw [arrayOf_eq, hcheck, Extent.mul?_eq_none_iff.mpr hl]
  rfl

/-- Copies that are not aligned are two at least, and the second of them is off. -/
private theorem exists_of_not_aligned_replicate (ha : ¬ Aligned 0 (List.replicate count element)) :
    ∃ more, count = more + 2 ∧ element.isBitPacked = false ∧ element.bitSize % 8 ≠ 0 := by
  rw [aligned_replicate_iff] at ha
  push Not at ha
  obtain ⟨hcount, hp, hoff⟩ := ha
  exact ⟨count - 2, by omega, hp, hoff⟩

/-- Of elements that are not aligned the second one is refused. -/
private theorem arrayOf_eq_misaligned_of_not_aligned
    (ha : ¬ Aligned 0 (List.replicate count element)) :
    arrayOf handle element count =
      .error (.misaligned element.signature (element.bitSize % 8)) := by
  obtain ⟨more, rfl, hp, hoff⟩ := exists_of_not_aligned_replicate ha
  rw [arrayOf_eq, if_pos (by omega), checkStart_eq_misaligned hp hoff]
  rfl

/-- The first copy starts where it may and its end can be counted, so that the second copy is the
one that is refused. -/
private theorem groupOf_replicate_eq_misaligned (ha : ¬ Aligned 0 (List.replicate count element))
    (hb : element.bitSize ≤ Extent.limit) :
    groupOf handle labels (List.replicate count element) =
      .error (.misaligned element.signature (element.bitSize % 8)) := by
  obtain ⟨more, rfl, hp, hoff⟩ := exists_of_not_aligned_replicate ha
  have hfirst : element.checkStart 0 = .ok () := checkStart_eq_ok_iff.mpr fun _ => rfl
  have hnext : Extent.add? 0 element.bitSize = some element.bitSize :=
    Extent.add?_eq_some_iff.mpr ⟨Nat.zero_add _, hb⟩
  have hsecond := checkStart_eq_misaligned hp hoff
  have hlayOut (length : Nat) : layOut length (List.replicate (more + 2) element) 0 =
      .error (.misaligned element.signature (element.bitSize % 8)) := by
    rw [List.replicate_succ, List.replicate_succ, layOut, hfirst, hnext]
    change ((layOut length (element :: List.replicate more element) element.bitSize) >>= _) = _
    rw [layOut, hsecond]
    rfl
  rw [groupOf, hlayOut]
  rfl

/-! ### The same for every question -/

/-- The two composites have the same sizes, they may start at the same bits, and they have the same
members at the same places. Views of the two at one location select the same member by every key,
and they read the same from every target or fail for the same cause. -/
structure Interchangeable (a b : Layout) : Prop where
  bitSize : a.bitSize = b.bitSize
  byteSize : a.byteSize = b.byteSize
  isBitPacked : a.isBitPacked = b.isBitPacked
  member? : ∀ position, a.member? position = b.member? position
  index : ∀ location key, (View.mk a location).index key = (View.mk b location).index key
  read : ∀ location target, (View.mk a location).read target = (View.mk b location).read target

/-- Both attempts give composites that are interchangeable, or both are refused: for one member at
one bit of a byte, or because what was to be built is too large. -/
inductive SameOutcome : Except BuildError Layout → Except BuildError Layout → Prop
  | ok {a b : Layout} (h : Interchangeable a b) : SameOutcome (.ok a) (.ok b)
  | misaligned {signature : String} {bitOffset : Nat} :
      SameOutcome (.error (.misaligned signature bitOffset))
        (.error (.misaligned signature bitOffset))
  | tooLarge {what what' : Oversize} :
      SameOutcome (.error (.tooLarge what)) (.error (.tooLarge what'))

section

variable (element : Layout) (count : Nat) (handle handle' : Handle)

/-- The array of so many elements. -/
abbrev repetition : Layout := .array handle element count (count * element.bitSize)

/-- The sequence of so many copies. -/
abbrev copies : Layout :=
  .group handle .positional (List.replicate count element)
    (starts 0 (List.replicate count element)) (totalBits (List.replicate count element))

/-- The array finds by a multiplication what the sequence has in its table. -/
private theorem member?_copies (position : Nat) :
    (repetition element count handle).member? position =
      (copies element count handle').member? position := by
  rw [member?, member?]
  split
  · rename_i hlt
    have hlength : position < (List.replicate count element).length := by
      rwa [List.length_replicate]
    rw [List.getElem?_replicate_of_lt hlt, getElem?_starts hlength, List.take_replicate,
      totalBits_replicate, Nat.zero_add, Nat.min_eq_left (Nat.le_of_lt hlt)]
  · rename_i hge
    rw [List.getElem?_eq_none (by simpa using hge)]

/-- Both may start anywhere if there are no elements, and otherwise wherever the element may. -/
private theorem isBitPacked_copies :
    (repetition element count handle).isBitPacked = (copies element count handle').isBitPacked := by
  rw [Bool.eq_iff_iff, isBitPacked_composite rfl, isBitPacked_composite rfl]
  rfl

/-- No key is a name of a member, so that keys select by position in both. -/
private theorem index_copies (location : Location) (key : Key) :
    (View.mk (repetition element count handle) location).index key =
      (View.mk (copies element count handle') location).index key := by
  have hposition : View.positionOf? (repetition element count handle) key =
      View.positionOf? (copies element count handle') key := by
    cases key with
    | name text => rfl
    | index position => cases position <;> rfl
  have hmember : (View.mk (repetition element count handle) location).member? =
      (View.mk (copies element count handle') location).member? := by
    funext position
    rw [View.member?, View.member?, member?_copies element count handle handle']
  change Except.ok (Option.bind _ _) = Except.ok (Option.bind _ _)
  rw [hposition, hmember]

/-- Both compare the same number of bytes with the target, and then read the same members. -/
private theorem read_copies (location : Location) (target : List UInt8) :
    (View.mk (repetition element count handle) location).read target =
      (View.mk (copies element count handle') location).read target := by
  have hsize : (View.mk (repetition element count handle) location).byteSize =
      (View.mk (copies element count handle') location).byteSize := by
    rw [View.byteSize, View.byteSize, Layout.bitSize, Layout.bitSize, totalBits_replicate]
  have hmembers := readMembers_replicate target location element 0 count
  rw [Nat.zero_mul, ← List.range_eq_range'] at hmembers
  rw [View.read, View.read, View.checkBounds, View.checkBounds, hsize, Layout.read, Layout.read,
    hmembers]
  rfl

end

/-- An array of copies of an element and a sequence of them are built alike: both can be built and
are interchangeable then, or both are refused because the same member would be misaligned by as many
bits, or both are too large. -/
theorem arrayOf_same_sequenceOf (hb : element.bitSize ≤ Extent.limit) (count : Nat)
    (handle handle' : Handle) :
    SameOutcome (arrayOf handle element count)
      (sequenceOf handle' (List.replicate count element)) := by
  rw [sequenceOf]
  by_cases ha : Aligned 0 (List.replicate count element)
  · by_cases hl : count * element.bitSize ≤ Extent.limit
    · have harray : arrayOf handle element count = .ok (repetition element count handle) :=
        arrayOf_eq_ok_iff.mpr ⟨ha, hl, rfl⟩
      have hgroup : groupOf handle' .positional (List.replicate count element) =
          .ok (copies element count handle') :=
        groupOf_eq_ok_iff.mpr ⟨ha, totalBits_replicate count element ▸ hl, rfl⟩
      rw [harray, hgroup]
      have hsize := totalBits_replicate count element
      exact .ok {
        bitSize := hsize.symm
        byteSize := congrArg Extent.bytesFor hsize.symm
        isBitPacked := isBitPacked_copies element count handle handle'
        member? := member?_copies element count handle handle'
        index := index_copies element count handle handle'
        read := read_copies element count handle handle' }
    · have hlarge : Extent.limit < count * element.bitSize := Nat.lt_of_not_le hl
      rw [arrayOf_eq_tooLarge ha hlarge,
        groupOf_eq_tooLarge ha (by rwa [totalBits_replicate])]
      exact .tooLarge
  · rw [arrayOf_eq_misaligned_of_not_aligned ha, groupOf_replicate_eq_misaligned ha hb]
    exact .misaligned

/-- Three bits in two fields: the elements of an array start at bits 0, 3, 6, 1 and so on. -/
def bitPair : Layout :=
  .group ⟨0, 0⟩ .positional [.atom ⟨0, 1⟩ (.bits 1 0), .atom ⟨0, 2⟩ (.bits 2 1)] [0, 1] 3

/-- A byte and a bit behind it: nine bits, so that a second one would start inside a byte. -/
def flaggedByte : Layout :=
  .group ⟨0, 3⟩ .positional [.atom ⟨0, 4⟩ (.integer .unsigned 1 .big), .atom ⟨0, 5⟩ (.bits 1 0)]
    [0, 8] 9

/-- Pairs of bit fields can be repeated, flagged bytes cannot. -/
theorem arrayOf_same_sequenceOf_pairs :
    bitPair.bitSize ≤ Extent.limit ∧
      Interchangeable (.array ⟨0, 6⟩ bitPair 3 9)
        (.group ⟨0, 7⟩ .positional [bitPair, bitPair, bitPair] [0, 3, 6] 9) ∧
      flaggedByte.bitSize ≤ Extent.limit ∧
      SameOutcome (arrayOf ⟨0, 6⟩ flaggedByte 2)
        (sequenceOf ⟨0, 7⟩ [flaggedByte, flaggedByte]) := by
  have hpair : bitPair.bitSize ≤ Extent.limit := by decide
  have hflagged : flaggedByte.bitSize ≤ Extent.limit := by decide
  have hbuilt : SameOutcome (.ok (.array ⟨0, 6⟩ bitPair 3 9))
      (.ok (.group ⟨0, 7⟩ .positional [bitPair, bitPair, bitPair] [0, 3, 6] 9)) :=
    arrayOf_same_sequenceOf hpair 3 ⟨0, 6⟩ ⟨0, 7⟩
  have hsame := arrayOf_same_sequenceOf hflagged 2 ⟨0, 6⟩ ⟨0, 7⟩
  cases hbuilt with
  | ok h => exact ⟨hpair, h, hflagged, hsame⟩

end Layout

end BinaryLayout
