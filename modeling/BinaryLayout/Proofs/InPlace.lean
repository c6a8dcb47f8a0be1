import BinaryLayout.InPlace
import BinaryLayout.Proofs.Field.Codec
import BinaryLayout.Proofs.Outcome

/-!
# Stores in place are made as a whole or not at all

A computation in place **settles** on the result of a store if it leaves what the store gives: the
new target, or the old one with the cause. It may overstep instead, for want of room. `Settles` goes
through a computation step by step: looking at the target changes nothing, and neither does a step
that has to succeed (`settles_require`), so that all depends on the bytes being overwritten last.

The stores of integers and bit fields settle, and they never overstep: the bytes that they overwrite
are in the target and can hold the number (`Bytes.storeWord_settles`, `Bytes.storeField_settles`).
So do stores through views (`View.store_settles`). Only a run of raw bytes too long for its bits to
be counted can be longer than its view says, and then there may be too little room for it.
-/

namespace BinaryLayout

namespace InPlace

variable {α : Type} {target target' : List UInt8} {room : Prop}

/-- What is left of the target is what a store gives, unless the computation oversteps for want of
room. -/
inductive Settles (target : List UInt8) (room : Prop) :
    Option (Except StoreError Unit × List UInt8) → Except StoreError (List UInt8) → Prop
  /-- A refused computation leaves the target as it was. -/
  | refused {cause : StoreError} : Settles target room (some (.error cause, target)) (.error cause)
  /-- A computation that is not refused leaves the new target. -/
  | stored {target' : List UInt8} (h : room) :
      Settles target room (some (.ok (), target')) (.ok target')
  /-- Without room there is no outcome. -/
  | overstepped {result : Except StoreError (List UInt8)} (h : ¬ room) :
      Settles target room none result

theorem Settles.congr {room' : Prop} {left : Option (Except StoreError Unit × List UInt8)}
    {result : Except StoreError (List UInt8)} (h : Settles target room left result)
    (hr : room ↔ room') : Settles target room' left result :=
  propext hr ▸ h

/-- With room enough the store is made as a whole or not at all. -/
theorem Settles.eq_allOrNothing {left : Option (Except StoreError Unit × List UInt8)}
    {result : Except StoreError (List UInt8)} (h : Settles target room left result) (hr : room) :
    left = some (allOrNothing target result) := by
  cases h with
  | refused => rfl
  | stored => rfl
  | overstepped h => exact absurd hr h

/-- A computation with an outcome leaves what the store gives, and there was room if it was not
refused. -/
theorem Settles.of_some {outcome : Except StoreError Unit} {result : Except StoreError (List UInt8)}
    (h : Settles target room (some (outcome, target')) result) :
    (∃ cause, outcome = .error cause ∧ result = .error cause ∧ target' = target) ∨
      outcome = .ok () ∧ result = .ok target' ∧ room := by
  cases h with
  | refused => exact .inl ⟨_, rfl, rfl, rfl⟩
  | stored h => exact .inr ⟨rfl, rfl, h⟩

/-! ### Steps -/

/-- Looking at the target. -/
theorem on_get_bind {action : List UInt8 → InPlace α} :
    (get >>= action).on target = (action target).on target := rfl

/-- A step that has to succeed before both. -/
theorem settles_require {step : Except StoreError α} {action : α → InPlace Unit}
    {result : α → Except StoreError (List UInt8)}
    (h : ∀ a, step = .ok a → Settles target room ((action a).on target) (result a)) :
    Settles target room ((require step >>= action).on target) (step >>= result) := by
  cases step with
  | error cause => exact .refused
  | ok a => exact h a rfl

private theorem on_bind_of_none {action : InPlace Unit} {next : Unit → InPlace α}
    (h : action.on target = none) : (action >>= next).on target = none := by
  rw [on, ExceptT.run_bind, StateT.run_bind]
  change (action.on target).bind _ = _
  rw [h]
  rfl

private theorem on_bind_of_ok {action : InPlace Unit} {next : Unit → InPlace α}
    (h : action.on target = some (.ok (), target')) :
    (action >>= next).on target = (next ()).on target' := by
  rw [on, ExceptT.run_bind, StateT.run_bind]
  change (action.on target).bind _ = _
  rw [h]
  rfl

section

variable {offset size number : Nat} {bytes : List UInt8}

theorem on_overwrite (h : offset + bytes.length ≤ target.length) :
    (overwrite offset bytes).on target =
      some (.ok (), target.take offset ++ bytes ++ target.drop (offset + bytes.length)) := by
  change InPlace.on (if _ then _ else _) target = _
  rw [if_pos h]
  rfl

private theorem on_overwrite_eq_none (h : target.length < offset + bytes.length) :
    (overwrite offset bytes).on target = none := by
  change InPlace.on (if _ then _ else _) target = _
  rw [if_neg (Nat.not_le_of_lt h)]
  rfl

/-- Overwriting two runs, the second just behind the first, is overwriting one. -/
private theorem on_overwrite_overwrite (offset : Nat) (front back : List UInt8) :
    (overwrite offset front >>= fun _ => overwrite (offset + front.length) back).on target =
      (overwrite offset (front ++ back)).on target := by
  by_cases hfront : offset + front.length ≤ target.length
  · have hl : (target.take offset ++ front).length = offset + front.length := by
      rw [List.length_append, List.length_take]
      omega
    have hlength : (target.take offset ++ front ++ target.drop (offset + front.length)).length =
        target.length := by
      rw [List.length_append, hl, List.length_drop]
      omega
    rw [on_bind_of_ok (on_overwrite hfront)]
    by_cases hback : offset + (front ++ back).length ≤ target.length
    · rw [List.length_append] at hback
      rw [on_overwrite (by rw [hlength]; omega), on_overwrite (by rwa [List.length_append]),
        List.take_left' hl, ← List.drop_drop, List.drop_left' hl, List.drop_drop,
        List.length_append, Nat.add_assoc]
      simp only [List.append_assoc]
    · rw [on_overwrite_eq_none (Nat.lt_of_not_le hback)]
      rw [List.length_append] at hback
      exact on_overwrite_eq_none (by rw [hlength]; omega)
  · have hwhole : target.length < offset + (front ++ back).length := by
      rw [List.length_append]
      omega
    rw [on_bind_of_none (on_overwrite_eq_none (Nat.lt_of_not_le hfront)),
      on_overwrite_eq_none hwhole]

private theorem on_overwriteNumber {order : ByteOrder} (hn : number < Bytes.patterns (8 * size))
    (h : offset + size ≤ target.length) :
    (overwriteNumber offset size number order).on target =
      some (.ok (), target.take offset ++ order.arrange (Bytes.ofNat size number) ++
        target.drop (offset + size)) := by
  have hlength : (order.arrange (Bytes.ofNat size number)).length = size := by
    rw [ByteOrder.length_arrange, Bytes.length_ofNat]
  rw [overwriteNumber, if_pos hn, on_overwrite (by rwa [hlength]), hlength]

end

end InPlace

open InPlace (Settles settles_require on_get_bind on_overwrite_overwrite on_overwrite
  on_overwrite_eq_none on_overwriteNumber)

variable {target : List UInt8}

namespace Bytes

/-- Storing an integer in place settles on writing it into the rest of the target. -/
theorem storeWord_settles (target : List UInt8) (offset value size : Nat) (order : ByteOrder) :
    Settles target True ((storeWord offset value size order).on target)
      ((writeWord value size order (target.drop offset)).map (target.take offset ++ ·)) := by
  rw [storeWord, on_get_bind, writeWord, Outcome.map_bind]
  refine settles_require fun _ hcheck => ?_
  obtain ⟨hs, ha⟩ := checkWord_eq_ok_iff.mp (Outcome.mapError_eq_ok_iff.mp hcheck)
  rw [List.length_drop] at ha
  have hfits : lowBits value (8 * size) < patterns (8 * size) := Nat.mod_lt _ (patterns_pos _)
  rw [on_overwriteNumber hfits (by omega), ofNat_lowBits, List.drop_drop, List.append_assoc]
  exact .stored trivial

/-- Storing a bit field in place settles on writing it into the rest of the target. -/
theorem storeField_settles (target : List UInt8) (offset value width bitOffset : Nat) :
    Settles target True ((storeField offset value width bitOffset).on target)
      ((writeField value width bitOffset (target.drop offset)).map (target.take offset ++ ·)) := by
  rw [storeField, on_get_bind, writeField, Outcome.map_bind]
  refine settles_require fun _ hcheck => ?_
  obtain ⟨hw, -, ha⟩ := checkField_eq_ok_iff.mp (Outcome.mapError_eq_ok_iff.mp hcheck)
  have hspan := span_le_iff.mpr ha
  have hpositive : 0 < span width bitOffset := by
    rw [span, Extent.bytesFor]
    omega
  rw [List.length_drop] at hspan
  rw [on_overwriteNumber (splice_span_lt ha value) (by omega), List.drop_drop, List.append_assoc]
  exact .stored trivial

end Bytes

namespace Field

/-- A run of raw bytes is stored in place as a whole, if there is room for it. -/
private theorem storeAt_raw {size : Nat} {bytes : List UInt8} (hl : bytes.length ≤ size)
    (value : Value) (location : Location) :
    Settles target (location.byte + size ≤ target.length)
      ((storeAt (.raw size) value (.bytes bytes) location).on target)
      (.ok (target.take location.byte ++ (bytes ++ List.replicate (size - bytes.length) 0 ++
        (target.drop location.byte).drop size))) := by
  have hsize : (bytes ++ List.replicate (size - bytes.length) (0 : UInt8)).length = size := by
    rw [List.length_append, List.length_replicate]
    omega
  rw [storeAt, on_overwrite_overwrite]
  by_cases hroom : location.byte + size ≤ target.length
  · rw [on_overwrite (by rwa [hsize]), hsize, List.drop_drop, List.append_assoc]
    exact .stored hroom
  · rw [on_overwrite_eq_none (by rw [hsize]; omega)]
    exact .overstepped hroom

/-- Storing in place what a field holds settles on writing it into the rest of the target. A run of
raw bytes needs room there. -/
theorem storeAt_settles {field : Field} {stored : Stored} {value : Value}
    (hs : field.store? value = some stored) (location : Location) :
    Settles target (∀ size, field = .raw size → location.byte + size ≤ target.length)
      ((field.storeAt value stored location).on target)
      ((field.write value stored location.bit (target.drop location.byte)).map
        (target.take location.byte ++ ·)) := by
  cases field with
  | integer signedness size order =>
    obtain ⟨word, rfl⟩ := exists_word_of_store? (by simp) hs
    exact (Bytes.storeWord_settles target location.byte word size order).congr (by simp)
  | bits width offset =>
    obtain ⟨word, rfl⟩ := exists_word_of_store? (by simp) hs
    exact (Bytes.storeField_settles target location.byte word width location.bit).congr
      (by simp)
  | raw size =>
    obtain ⟨bytes, -, hlength, rfl⟩ := store?_raw_iff.mp hs
    refine (storeAt_raw hlength value location).congr ⟨?_, fun h => h size rfl⟩
    rintro h _ ⟨⟩
    exact h

end Field

namespace View

/-- A run of raw bytes that passes the check of the bounds is in a target of the length. -/
def HasRoom (view : View) (length : Nat) : Prop :=
  ∀ size, view.layout.field? = some (.raw size) → view.checkBounds length = .ok () →
    view.location.byte + size ≤ length

/-- Storing a value in place settles on writing it. -/
theorem store_settles (view : View) (target : List UInt8) (value : Value) :
    Settles target (view.HasRoom target.length) ((view.store value).on target)
      (view.write target value) := by
  rw [store, write]
  cases hf : view.layout.field? with
  | none => exact .refused
  | some field =>
    refine settles_require fun stored hstored => ?_
    rw [on_get_bind]
    refine settles_require fun _ hcheck => settles_require fun tail htail => ?_
    obtain ⟨-, rfl⟩ := tailFrom_eq_ok_iff.mp (Outcome.mapError_eq_ok_iff.mp htail)
    have hbounds := Outcome.mapError_eq_ok_iff.mp hcheck
    refine (Field.storeAt_settles (Field.store?_of_encode hstored) view.location).congr ?_
    rw [HasRoom, hf]
    simp only [Option.some.injEq, hbounds, forall_const]

/-- In a target whose bits can be counted there is room for every view. -/
theorem hasRoom_of_le {length : Nat} (view : View) (hl : length ≤ Extent.limit / 8) :
    view.HasRoom length := by
  intro size hf hcheck
  have hneeded : Extent.satAdd view.location.byte view.byteSize ≤ length := by
    rw [checkBounds] at hcheck
    split at hcheck
    · cases hcheck
    · omega
  obtain ⟨handle, hatom⟩ := Layout.field?_eq_some_iff.mp hf
  have hsize : view.layout.bitSize = min (size * 8) Extent.limit := by
    rw [hatom]
    rfl
  -- neither the bits of the run nor its end saturate
  rw [Extent.satAdd, byteSize, Extent.bytesFor, Extent.satAdd, hsize] at hneeded
  rw [Extent.limit] at *
  omega

end View

end BinaryLayout
