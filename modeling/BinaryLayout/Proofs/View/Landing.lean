import BinaryLayout.Proofs.InPlace

/-!
# Where stores land

A view may be of any field at any location, also of an integer that starts inside of a byte. An
integer or a run of raw bytes is stored from the first bit of its byte on all the same, and read
from there; the **origin** of a view is where its field lies.

A store through any view that succeeds, and for which there was room, shows that the field lies in
the target at the origin of the view, and it puts the pattern of the value there
(`exists_pattern_of_write`). What the bits there denote is what is read through the view
(`read_of_liesAt`).
-/

namespace BinaryLayout

open Bytes (segmentBits replaceBits)

/-- Where a field lies that is viewed at a location. -/
def Field.origin : Field → Location → Location
  | .bits _ _, location => location
  | _, location => ⟨location.byte, 0⟩

namespace Field

variable {field : Field} {value : Value} {stored : Stored} {target tail : List UInt8}
  {location : Location}

private theorem byte_origin (field : Field) (location : Location) :
    (field.origin location).byte = location.byte := by
  cases field <;> rfl

/-- What is read at a location is read at the origin. -/
private theorem read_origin (field : Field) (target : Array UInt8) (location : Location) :
    field.read target (field.origin location) = field.read target location := by
  cases field with
  | integer signedness => cases signedness <;> rfl
  | bits | raw => rfl

/-- What is written at a location is written at the origin. -/
private theorem write_origin (field : Field) (value : Value) (stored : Stored) (location : Location)
    (tail : List UInt8) : field.write value stored (field.origin location).bit tail =
      field.write value stored location.bit tail := by
  cases field <;> cases stored <;> rfl

/-- A field that is stored, and for which there was room, lies at its origin. -/
private theorem liesAt_of_write (hs : field.store? value = some stored)
    (hbyte : location.byte ≤ target.length)
    (hroom : ∀ size, field = .raw size → location.byte + size ≤ target.length)
    (hw : field.write value stored location.bit (target.drop location.byte) = .ok tail) :
    field.LiesAt (field.origin location) target.length := by
  cases field with
  | integer signedness size order =>
    obtain ⟨word, rfl⟩ := exists_word_of_store? (by simp) hs
    obtain ⟨hsize, hfits⟩ := Bytes.fits_of_writeWord hw
    rw [List.length_drop] at hfits
    refine ⟨hsize, Nat.zero_lt_succ _, fun _ => rfl, ?_⟩
    change 8 * location.byte + 0 + 8 * size ≤ _
    omega
  | bits width offset =>
    obtain ⟨word, rfl⟩ := exists_word_of_store? (by simp) hs
    obtain ⟨hwidth, hbit, hfits⟩ := Bytes.fits_of_writeField hw
    rw [List.length_drop] at hfits
    refine ⟨hwidth, Nat.lt_succ_of_le hbit, nofun, ?_⟩
    change 8 * location.byte + location.bit + width ≤ _
    omega
  | raw size =>
    have hfits := hroom size rfl
    refine ⟨trivial, Nat.zero_lt_succ _, fun _ => rfl, ?_⟩
    change 8 * location.byte + 0 + 8 * size ≤ _
    omega

end Field

namespace View

/-- Where the field of a view lies. -/
def origin (view : View) : Location :=
  match view.layout.field? with
  | some field => field.origin view.location
  | none => view.location

variable {view : View} {field : Field} {value : Value} {target target' : List UInt8}

/-- The origin of a view is that of its field. -/
private theorem origin_eq (hf : view.layout.field? = some field) :
    view.origin = field.origin view.location := by
  rw [origin, hf]

/-- What a store through a view does that succeeds, if there was room for it. -/
theorem exists_pattern_of_write (hr : view.HasRoom target.length)
    (hw : view.write target value = .ok target') :
    ∃ field stored, view.layout.field? = some field ∧ field.store? value = some stored ∧
      view.checkBounds target.length = .ok () ∧ field.LiesAt view.origin target.length ∧
      Bytes.bits target' =
        replaceBits (Bytes.bits target) view.origin.position (field.pattern stored) := by
  rw [write] at hw
  split at hw
  · cases hw
  · rename_i field hf
    -- each step of the store succeeded
    obtain ⟨stored, hencode, hw⟩ := Outcome.bind_eq_ok_iff.mp hw
    obtain ⟨hcheck, hw⟩ := Outcome.check_eq_ok_iff.mp hw
    obtain ⟨tail, htail, hw⟩ := Outcome.bind_eq_ok_iff.mp hw
    obtain ⟨tail', hwrite, hresult⟩ := Outcome.bind_eq_ok_iff.mp hw
    have hstored := Field.store?_of_encode hencode
    have hbounds := Outcome.mapError_eq_ok_iff.mp hcheck
    obtain ⟨hbyte, rfl⟩ := tailFrom_eq_ok_iff.mp (Outcome.mapError_eq_ok_iff.mp htail)
    obtain rfl := Except.ok.inj hresult
    have hlies := Field.liesAt_of_write hstored hbyte
      (fun size hraw => hr size (hraw ▸ hf) hbounds) hwrite
    obtain ⟨written, hwritten, hbits⟩ := Field.write_eq_ok hlies hstored
    rw [field.write_origin, field.byte_origin, hwrite] at hwritten
    obtain rfl := Except.ok.inj hwritten
    rw [field.byte_origin] at hbits
    refine ⟨field, stored, hf, hstored, hbounds, ?_, ?_⟩
    · rwa [origin_eq hf]
    · rwa [origin_eq hf]

/-- What is read through a view whose field lies in the target. -/
theorem read_of_liesAt (hf : view.layout.field? = some field)
    (hb : view.checkBounds target.length = .ok ()) (hl : field.LiesAt view.origin target.length) :
    view.read target = .ok (field.ofBits
      (segmentBits (Bytes.bits target) view.origin.position field.exactBitSize)) := by
  have hread := Field.read_eq_ok hl
  have hfits := hl.fits
  rw [origin_eq hf] at *
  rw [field.read_origin] at hread
  rw [Location.position, field.byte_origin] at hfits
  have hoffset : checkOffset target.toArray view.location.byte = .ok () :=
    if_pos (by change view.location.byte ≤ target.length; omega)
  obtain ⟨layout, location⟩ := view
  obtain ⟨handle, rfl⟩ := Layout.field?_eq_some_iff.mp hf
  rw [read, hb]
  change Layout.read target.toArray (.atom handle field) location = _
  rw [Layout.read, hoffset]
  exact hread

end View

end BinaryLayout
