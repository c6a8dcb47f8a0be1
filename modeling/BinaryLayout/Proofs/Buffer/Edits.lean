import BinaryLayout.Buffer.Edit
import BinaryLayout.Proofs.View.Landing

/-!
# Runs of edits

An edit names a run of bits, from `Edit.start` on. It settles on the buffer that `Edit.apply` gives
(`Edit.perform_settles`): when it is refused, nothing has changed, and when it is made, it has put a
pattern into the bits that it names and left all others alone (`Edit.Puts`). The pattern is all that
matters for reading the value back: it is read from every buffer of the same length that has the
pattern in these bits.

So a run of edits keeps the length and all bits that no successful edit in it names
(`Edit.Run.length_eq`, `Edit.Run.getElem?_eq`), and what an edit stored is read back at the end of
the run unless a later successful edit names one of its bits (`Edit.run_changes_what_it_names`).
-/

namespace BinaryLayout.Buffer

open Bytes (segmentBits replaceBits lowBits)
open InPlace (Settles settles_require on_get_bind on_overwrite)

variable {buffer : Buffer} {offset length : Nat}

/-! ### Ranges -/

theorem checkRange_eq_ok_iff : buffer.checkRange offset length = .ok () ↔
    offset + length ≤ Extent.limit ∧ offset + length ≤ buffer.length := by
  rw [checkRange]
  split <;> simp [*]

theorem slice_eq_ok_iff {bytes : List UInt8} : buffer.slice offset length = .ok bytes ↔
    (offset + length ≤ Extent.limit ∧ offset + length ≤ buffer.length) ∧
      (buffer.bytes.drop offset).take length = bytes := by
  rw [slice, Outcome.check_eq_ok_iff, checkRange_eq_ok_iff]
  exact and_congr_right fun _ => ⟨Except.ok.inj, congrArg Except.ok⟩

theorem tail_eq_ok_iff {tail : List UInt8} : buffer.tail offset = .ok tail ↔
    (buffer.length ≤ Extent.limit ∧ offset ≤ buffer.length) ∧
      buffer.bytes.drop offset = tail := by
  have hrange : offset + (buffer.length - offset) ≤ Extent.limit ∧
      offset + (buffer.length - offset) ≤ buffer.length ↔
        buffer.length ≤ Extent.limit ∧ offset ≤ buffer.length := by omega
  have hall : (buffer.bytes.drop offset).take (buffer.length - offset) =
      buffer.bytes.drop offset :=
    List.take_of_length_le (Nat.le_of_eq List.length_drop)
  rw [Buffer.tail, slice_eq_ok_iff, hrange, hall]

/-- Replacing all that there is from an offset on. -/
theorem bytes_replace_tail {bytes : List UInt8} (h : offset ≤ buffer.length)
    (hl : bytes.length = (buffer.bytes.drop offset).length) :
    (buffer.replace offset bytes).bytes = buffer.bytes.take offset ++ bytes := by
  have hend : buffer.bytes.length ≤ offset + bytes.length := by
    rw [hl, List.length_drop]
    change offset ≤ buffer.bytes.length at h
    omega
  rw [replace, List.drop_of_length_le hend, List.append_nil]

namespace Edit

/-! ### Making an edit -/

/-- There is room for the edit in a buffer of the length. -/
def HasRoom (length : Nat) : Edit → Prop
  | .field view _ => view.HasRoom length
  | _ => True

/-- Storing into all that there is from an offset on. -/
private theorem settles_tail {codec : List UInt8 → Except StoreError (List UInt8)}
    {action : InPlace Unit}
    (hl : ∀ {tail tail' : List UInt8}, codec tail = .ok tail' → tail'.length = tail.length)
    (ha : Settles buffer.bytes True (action.on buffer.bytes)
      ((codec (buffer.bytes.drop offset)).map (buffer.bytes.take offset ++ ·))) :
    Settles buffer.bytes True
      ((InPlace.require ((buffer.tail offset).mapError AccessError.toStoreError) >>=
        fun _ => action).on buffer.bytes)
      (((buffer.tail offset).mapError AccessError.toStoreError >>= fun tail =>
        codec tail >>= fun tail' => pure (buffer.replace offset tail')).map Buffer.bytes) := by
  rw [Outcome.map_bind]
  refine settles_require fun tail htail => ?_
  obtain ⟨⟨-, hoffset⟩, rfl⟩ := tail_eq_ok_iff.mp (Outcome.mapError_eq_ok_iff.mp htail)
  cases hcodec : codec (buffer.bytes.drop offset) with
  | error cause =>
    rw [hcodec] at ha
    exact ha
  | ok tail' =>
    rw [hcodec] at ha
    have hreplace := bytes_replace_tail hoffset (hl hcodec)
    change Settles _ _ _ (.ok (buffer.replace offset tail').bytes)
    rw [hreplace]
    exact ha

/-- An edit in place settles on the buffer that it gives. -/
theorem perform_settles (buffer : Buffer) (edit : Edit) :
    Settles buffer.bytes (edit.HasRoom buffer.length) (edit.perform.on buffer.bytes)
      ((edit.apply buffer).map Buffer.bytes) := by
  cases edit with
  | raw offset bytes =>
    rw [perform, on_get_bind, apply, writeRaw, Outcome.map_bind]
    refine settles_require fun _ hcheck => ?_
    obtain ⟨-, hrange⟩ := checkRange_eq_ok_iff.mp (Outcome.mapError_eq_ok_iff.mp hcheck)
    rw [on_overwrite hrange]
    exact .stored trivial
  | integer offset value size order =>
    rw [perform, on_get_bind, apply, writeInt]
    exact settles_tail (fun h => (Bytes.bits_of_writeWord h).1)
      (Bytes.storeWord_settles buffer.bytes offset value size order)
  | bits offset bitOffset width value =>
    rw [perform, on_get_bind, apply, writeBits]
    exact settles_tail (fun h => (Bytes.bits_of_writeField h).1)
      (Bytes.storeField_settles buffer.bytes offset value width bitOffset)
  | field view value =>
    have hstore := view.store_settles buffer.bytes value
    have hbytes : (apply buffer (.field view value)).map Buffer.bytes =
        view.write buffer.bytes value := by
      rw [apply, Buffer.write]
      cases view.write buffer.bytes value <;> rfl
    rw [hbytes]
    exact hstore

/-! ### The bits that an edit names -/

/-- The first bit that an edit names. -/
def start : Edit → Nat
  | .raw offset _ => 8 * offset
  | .integer offset _ _ _ => 8 * offset
  | .bits offset bitOffset _ _ => 8 * offset + bitOffset
  | .field view _ => view.origin.position

/-- The number of bits that an edit names. -/
def bitSize : Edit → Nat
  | .raw _ bytes => 8 * bytes.length
  | .integer _ _ size _ => 8 * size
  | .bits _ _ width _ => width
  | .field view _ => view.layout.exactBitSize

/-- The edit names the bit. -/
def Covers (edit : Edit) (i : Nat) : Prop := edit.start ≤ i ∧ i < edit.start + edit.bitSize

/-- The edits name a bit in common. -/
def Overlaps (edit other : Edit) : Prop := ∃ i, edit.Covers i ∧ other.Covers i

/-- What an edit names is read from a buffer as what the edit stores there. -/
def ReadsBack (buffer : Buffer) : Edit → Prop
  | .raw offset bytes => buffer.slice offset bytes.length = .ok bytes
  | .integer offset value size order =>
    buffer.readInt offset size order = .ok (lowBits value (8 * size))
  | .bits offset bitOffset width value =>
    buffer.readBits offset bitOffset width = .ok (lowBits value width)
  | .field view value => ∃ field, view.layout.field? = some field ∧
    view.read buffer.bytes = .ok (field.canonical value)

/-- An edit that is made puts a pattern into the bits that it names. What it stored is read back
from every buffer of the length with the pattern there. -/
structure Puts (edit : Edit) (before after : Buffer) (pattern : List Bool) : Prop where
  length_eq : pattern.length = edit.bitSize
  fits : edit.start + edit.bitSize ≤ 8 * before.length
  bits_eq : Bytes.bits after.bytes = replaceBits (Bytes.bits before.bytes) edit.start pattern
  readsBack : ∀ other : Buffer, other.length = before.length →
    segmentBits (Bytes.bits other.bytes) edit.start edit.bitSize = pattern → edit.ReadsBack other

variable {edit : Edit} {before after : Buffer} {pattern : List Bool}

private theorem puts_raw {offset : Nat} {bytes : List UInt8}
    (h : before.writeRaw offset bytes = .ok after) :
    Puts (.raw offset bytes) before after (Bytes.bits bytes) := by
  obtain ⟨hcheck, hafter⟩ := Outcome.check_eq_ok_iff.mp h
  obtain ⟨hlimit, hrange⟩ := checkRange_eq_ok_iff.mp (Outcome.mapError_eq_ok_iff.mp hcheck)
  obtain rfl := Except.ok.inj hafter
  refine ⟨Bytes.length_bits _, ?_, ?_, fun other hl hp => ?_⟩
  · change 8 * offset + 8 * bytes.length ≤ _
    omega
  · rw [replace, replaceBits, Bytes.bits_append, Bytes.bits_append, Bytes.bits_take,
      Bytes.bits_drop, Bytes.length_bits, Nat.mul_add]
    rfl
  · refine slice_eq_ok_iff.mpr ⟨⟨hlimit, hl ▸ hrange⟩, Bytes.bits_inj ?_⟩
    rw [Bytes.bits_take_drop]
    exact hp

/-- A pattern that is put into all that there is from an offset on. -/
private theorem puts_tail {offset bit : Nat} {tail' : List UInt8}
    (ho : before.length ≤ Extent.limit ∧ offset ≤ before.length)
    (hs : edit.start = 8 * offset + bit) (hp : pattern.length = edit.bitSize)
    (hf : bit + edit.bitSize ≤ 8 * (before.bytes.drop offset).length)
    (hw : tail'.length = (before.bytes.drop offset).length ∧
      Bytes.bits tail' = replaceBits (Bytes.bits (before.bytes.drop offset)) bit pattern)
    (hr : ∀ other : Buffer, other.tail offset = .ok (other.bytes.drop offset) →
      (other.bytes.drop offset).length = (before.bytes.drop offset).length →
      segmentBits (Bytes.bits (other.bytes.drop offset)) bit edit.bitSize = pattern →
        edit.ReadsBack other) :
    Puts edit before (before.replace offset tail') pattern := by
  obtain ⟨hlength, hbits⟩ := hw
  refine ⟨hp, ?_, ?_, fun other hl hsegment => ?_⟩
  · have hoffset : offset ≤ before.bytes.length := ho.2
    rw [List.length_drop] at hf
    rw [hs, Buffer.length]
    omega
  · rw [bytes_replace_tail ho.2 hlength, Bytes.bits_append, Bytes.bits_take, hbits,
      Bytes.bits_drop, Bytes.take_append_replaceBits_drop, hs]
  · refine hr other (tail_eq_ok_iff.mpr ⟨hl ▸ ho, rfl⟩) ?_ ?_
    · rw [List.length_drop, List.length_drop]
      exact congrArg (· - offset) hl
    · rw [Bytes.bits_drop, Bytes.segmentBits_drop, ← hs]
      exact hsegment

private theorem puts_integer {offset value size : Nat} {order : ByteOrder}
    (h : before.writeInt offset value size order = .ok after) :
    Puts (.integer offset value size order) before after
      (order.arrangeBits (Bytes.toBits (8 * size) value)) := by
  obtain ⟨tail, htail, h⟩ := Outcome.bind_eq_ok_iff.mp h
  obtain ⟨tail', hwrite, hafter⟩ := Outcome.bind_eq_ok_iff.mp h
  obtain ⟨hoffset, rfl⟩ := tail_eq_ok_iff.mp (Outcome.mapError_eq_ok_iff.mp htail)
  obtain rfl := Except.ok.inj hafter
  obtain ⟨hsize, hfits⟩ := Bytes.fits_of_writeWord hwrite
  refine puts_tail hoffset rfl (order.length_arrangeBits_toBits _ _) ?_
    (Bytes.bits_of_writeWord hwrite) fun other htail hl hsegment => ?_
  · change 0 + 8 * size ≤ _
    omega
  · refine Outcome.bind_eq_ok_iff.mpr ⟨_, htail, ?_⟩
    change segmentBits _ 0 (8 * size) = _ at hsegment
    rw [Bytes.readWord_eq_ok order hsize (hl ▸ hfits), hsegment,
      order.arrangeBits_arrangeBits (Bytes.length_toBits _ _), Bytes.ofBits_toBits]

private theorem puts_bits {offset bitOffset width value : Nat}
    (h : before.writeBits offset bitOffset width value = .ok after) :
    Puts (.bits offset bitOffset width value) before after (Bytes.toBits width value) := by
  obtain ⟨tail, htail, h⟩ := Outcome.bind_eq_ok_iff.mp h
  obtain ⟨tail', hwrite, hafter⟩ := Outcome.bind_eq_ok_iff.mp h
  obtain ⟨hoffset, rfl⟩ := tail_eq_ok_iff.mp (Outcome.mapError_eq_ok_iff.mp htail)
  obtain rfl := Except.ok.inj hafter
  obtain ⟨hwidth, hbit, hfits⟩ := Bytes.fits_of_writeField hwrite
  refine puts_tail hoffset rfl (Bytes.length_toBits _ _) hfits
    (Bytes.bits_of_writeField hwrite) fun other htail hl hsegment => ?_
  refine Outcome.bind_eq_ok_iff.mpr ⟨_, htail, ?_⟩
  change segmentBits _ bitOffset width = _ at hsegment
  rw [Bytes.readField_eq_ok hwidth hbit (hl ▸ hfits), hsegment, Bytes.ofBits_toBits]

private theorem exists_puts_field {view : View} {value : Value}
    (hr : view.HasRoom before.length) (h : before.write view value = .ok after) :
    ∃ pattern, Puts (.field view value) before after pattern := by
  obtain ⟨target', hwrite, hafter⟩ := Outcome.bind_eq_ok_iff.mp h
  obtain rfl := Except.ok.inj hafter
  obtain ⟨field, stored, hf, hstored, hbounds, hlies, hbits⟩ :=
    View.exists_pattern_of_write hr hwrite
  obtain ⟨hlength, hcanonical⟩ := Field.ofBits_pattern hlies.accessible hstored
  have hsize : view.layout.exactBitSize = field.exactBitSize := by
    obtain ⟨handle, hatom⟩ := Layout.field?_eq_some_iff.mp hf
    rw [hatom]
    rfl
  refine ⟨field.pattern stored, hlength.trans hsize.symm, ?_, hbits, fun other hl hsegment => ?_⟩
  · change view.origin.position + view.layout.exactBitSize ≤ _
    rw [hsize]
    exact hlies.fits
  · change segmentBits _ view.origin.position view.layout.exactBitSize = _ at hsegment
    change other.bytes.length = before.bytes.length at hl
    rw [hsize] at hsegment
    refine ⟨field, hf, ?_⟩
    rw [View.read_of_liesAt hf (hl ▸ hbounds) (hl ▸ hlies), hsegment, hcanonical]

/-- An edit that is made puts a pattern into the bits that it names. -/
private theorem exists_puts (hr : edit.HasRoom before.length) (h : edit.apply before = .ok after) :
    ∃ pattern, edit.Puts before after pattern := by
  cases edit with
  | raw offset bytes => exact ⟨_, puts_raw h⟩
  | integer offset value size order => exact ⟨_, puts_integer h⟩
  | bits offset bitOffset width value => exact ⟨_, puts_bits h⟩
  | field view value => exact exists_puts_field hr h

/-! ### One edit -/

private theorem Puts.length_after (h : edit.Puts before after pattern) :
    after.length = before.length :=
  Bytes.length_eq_of_bits (h.length_eq ▸ h.fits) h.bits_eq

/-- The bits that an edit does not name stay. -/
theorem Puts.getElem?_eq (h : edit.Puts before after pattern) {i : Nat} (hi : ¬ edit.Covers i) :
    (Bytes.bits after.bytes)[i]? = (Bytes.bits before.bytes)[i]? := by
  have hfits : edit.start + pattern.length ≤ (Bytes.bits before.bytes).length := by
    rw [h.length_eq, Bytes.length_bits]
    exact h.fits
  rw [h.bits_eq]
  rcases Nat.lt_or_ge i edit.start with hstart | hstart
  · exact Bytes.getElem?_replaceBits_of_lt hfits hstart
  · refine Bytes.getElem?_replaceBits_of_le hfits (Nat.le_of_not_lt fun hend => hi ⟨hstart, ?_⟩)
    rwa [← h.length_eq]

/-- What is stored is read back from every buffer of the length with the same bits in the place that
the edit names. -/
private theorem Puts.readsBack_of_agree (h : edit.Puts before after pattern) {other : Buffer}
    (hl : other.length = after.length)
    (ha : ∀ i, edit.Covers i →
      (Bytes.bits other.bytes)[i]? = (Bytes.bits after.bytes)[i]?) : edit.ReadsBack other := by
  have hafter : after.bytes.length = before.bytes.length := h.length_after
  have hother : other.bytes.length = before.bytes.length := hl.trans hafter
  have hfits : edit.start + edit.bitSize ≤ 8 * before.bytes.length := h.fits
  have hsegment : segmentBits (Bytes.bits after.bytes) edit.start edit.bitSize = pattern := by
    rw [h.bits_eq, ← h.length_eq]
    exact Bytes.segmentBits_replaceBits (by rwa [h.length_eq, Bytes.length_bits])
  refine h.readsBack other hother (Eq.trans ?_ hsegment)
  refine (Bytes.segmentBits_eq_iff ?_ ?_).mpr fun i hi => ha _ ⟨Nat.le_add_right _ _, ?_⟩
  · rwa [Bytes.length_bits, hother]
  · rwa [Bytes.length_bits, hafter]
  · omega

/-- What an edit in place does: it is refused and nothing changes, or it is made and puts a pattern
into the bits that it names. -/
theorem perform_cases {outcome : Except StoreError Unit}
    (h : edit.perform.on before.bytes = some (outcome, after.bytes)) :
    (∃ cause, outcome = .error cause ∧ edit.apply before = .error cause ∧ after = before) ∨
      (outcome = .ok () ∧ edit.apply before = .ok after ∧
        ∃ pattern, edit.Puts before after pattern) := by
  have hsettles := perform_settles before edit
  rw [h] at hsettles
  rcases hsettles.of_some with ⟨cause, rfl, hresult, hbytes⟩ | ⟨rfl, hresult, hroom⟩
  · refine .inl ⟨cause, rfl, ?_, congrArg Buffer.mk hbytes⟩
    cases happly : edit.apply before with
    | error other =>
      rw [happly] at hresult
      exact congrArg Except.error (Except.error.inj hresult)
    | ok made =>
      rw [happly] at hresult
      cases hresult
  · obtain ⟨made, hmade, hbytes⟩ := Outcome.map_eq_ok_iff.mp hresult
    obtain rfl : made = after := congrArg Buffer.mk hbytes
    exact .inr ⟨rfl, hmade, exists_puts hroom hmade⟩

/-! ### Runs -/

variable {events front back : List (Edit × Except StoreError Unit)} {final : Buffer}

private theorem run_append_iff : Run before (front ++ back) final ↔
    ∃ middle, Run before front middle ∧ Run middle back final := by
  induction front generalizing before with
  | nil =>
    constructor
    · exact fun h => ⟨before, .nil, h⟩
    · rintro ⟨middle, hfront, hback⟩
      cases hfront
      exact hback
  | cons event front ih =>
    constructor
    · intro h
      cases h with
      | cons h hr =>
        obtain ⟨middle, hfront, hback⟩ := ih.mp hr
        exact ⟨middle, .cons h hfront, hback⟩
    · rintro ⟨middle, hfront, hback⟩
      cases hfront with
      | cons h hr => exact .cons h (ih.mpr ⟨middle, hr, hback⟩)

/-- A run keeps the length. -/
theorem Run.length_eq (h : Run before events final) : final.length = before.length := by
  induction h with
  | nil => rfl
  | cons h hr ih =>
    rcases perform_cases h with ⟨cause, -, -, hnext⟩ | ⟨-, -, pattern, hputs⟩
    · rw [ih, hnext]
    · rw [ih, hputs.length_after]

/-- A run keeps the bits that no edit that is made names. -/
theorem Run.getElem?_eq (h : Run before events final) {i : Nat}
    (hi : ∀ edit, (edit, .ok ()) ∈ events → ¬ edit.Covers i) :
    (Bytes.bits final.bytes)[i]? = (Bytes.bits before.bytes)[i]? := by
  induction h with
  | nil => rfl
  | @cons before next final edit outcome later h hr ih =>
    rw [ih fun edit hmem => hi edit (List.mem_cons_of_mem _ hmem)]
    rcases perform_cases h with ⟨cause, -, -, hnext⟩ | ⟨rfl, -, pattern, hputs⟩
    · rw [hnext]
    · exact hputs.getElem?_eq (hi edit List.mem_cons_self)

/-- In a buffer whose bits can be counted all edits can be made one after the other. -/
theorem exists_run (hl : before.length ≤ Extent.limit / 8) (edits : List Edit) :
    ∃ events final, events.map Prod.fst = edits ∧ Run before events final := by
  induction edits generalizing before with
  | nil => exact ⟨[], before, rfl, .nil⟩
  | cons edit edits ih =>
    have hroom : edit.HasRoom before.length := by
      cases edit with
      | field view value => exact view.hasRoom_of_le hl
      | raw | integer | bits => trivial
    obtain ⟨⟨outcome, left⟩, hperform⟩ : ∃ result, edit.perform.on before.bytes = some result :=
      ⟨_, (perform_settles before edit).eq_allOrNothing hroom⟩
    have hstep : Run before [(edit, outcome)] ⟨left⟩ := .cons hperform .nil
    have hleft : Buffer.length ⟨left⟩ ≤ Extent.limit / 8 := hstep.length_eq ▸ hl
    obtain ⟨events, final, rfl, hrun⟩ := ih hleft
    exact ⟨(edit, outcome) :: events, final, rfl, .cons hperform hrun⟩

/-- Edits of any kind, at any offsets and through any views, are made one after the other, unless
the bits of the buffer cannot be counted. However they end, the length of the buffer stays. An edit
that is refused changes nothing. One that is made changes no bit but those it names, and what it
stored is what is read there at the end, if no later edit that is made names one of these bits. -/
theorem run_changes_what_it_names (buffer : Buffer) :
    (buffer.length ≤ Extent.limit / 8 → ∀ edits : List Edit, ∃ events final,
      events.map Prod.fst = edits ∧ Run buffer events final) ∧
    ∀ events final, Run buffer events final →
      final.length = buffer.length ∧
      ∀ front edit outcome back, events = front ++ (edit, outcome) :: back →
        ∃ before after, Run buffer front before ∧
          edit.perform.on before.bytes = some (outcome, after.bytes) ∧ Run after back final ∧
          (∀ cause, outcome = .error cause →
            edit.apply before = .error cause ∧ after = before) ∧
          (outcome = .ok () → edit.apply before = .ok after ∧
            (∀ i, ¬ edit.Covers i →
              (Bytes.bits after.bytes)[i]? = (Bytes.bits before.bytes)[i]?) ∧
            ((∀ later, (later, .ok ()) ∈ back → ¬ edit.Overlaps later) →
              edit.ReadsBack final)) := by
  refine ⟨fun hl edits => exists_run hl edits, ?_⟩
  intro events final hrun
  refine ⟨hrun.length_eq, ?_⟩
  rintro front edit outcome back rfl
  obtain ⟨before, hfront, hrest⟩ := run_append_iff.mp hrun
  cases hrest with
  | @cons _ after _ _ _ _ hperform hback =>
    refine ⟨before, after, hfront, hperform, hback, ?_⟩
    rcases perform_cases hperform with ⟨cause, rfl, happly, hafter⟩ | ⟨rfl, happly, pattern, hputs⟩
    · refine ⟨?_, nofun⟩
      rintro _ ⟨⟩
      exact ⟨happly, hafter⟩
    · refine ⟨nofun, fun _ => ⟨happly, fun i hi => hputs.getElem?_eq hi, ?_⟩⟩
      intro hlater
      -- the bits that the edit names are those that it left, up to the end
      have hagree : ∀ i, edit.Covers i →
          (Bytes.bits final.bytes)[i]? = (Bytes.bits after.bytes)[i]? := by
        intro i hi
        have hnone : ∀ later, (later, .ok ()) ∈ back → ¬ later.Covers i :=
          fun later hmem hcovers => hlater later hmem ⟨i, hi, hcovers⟩
        exact hback.getElem?_eq hnone
      exact hputs.readsBack_of_agree hback.length_eq hagree

end Edit

end BinaryLayout.Buffer
