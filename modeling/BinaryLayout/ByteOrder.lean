/-!
# Byte orders

The order in which the bytes of an integer are stored: least significant first (`little`) or most
significant first (`big`). An order has a one-letter tag, used in the signatures of fields, and a
name, used in written dialects.
-/

namespace BinaryLayout

/-- Which end of an integer is stored first. -/
inductive ByteOrder where
  /-- The least significant byte comes first. -/
  | little
  /-- The most significant byte comes first. -/
  | big
  deriving DecidableEq, Repr

namespace ByteOrder

instance : Inhabited ByteOrder := ⟨.little⟩

/-- The letter that ends the signature of an integer of this order. -/
def tag : ByteOrder → Char
  | little => 'L'
  | big => 'B'

/-- The written name of the order. -/
def name : ByteOrder → String
  | little => "Little"
  | big => "Big"

/-- The order of a given name. -/
def ofName? (name : String) : Option ByteOrder :=
  [little, big].find? (·.name == name)

/-- Bytes listed most significant first, put into this order; and the way back, since reversing
twice changes nothing. -/
def arrange (order : ByteOrder) (bytes : List UInt8) : List UInt8 :=
  match order with
  | little => bytes.reverse
  | big => bytes

theorem arrange_arrange (order : ByteOrder) (bytes : List UInt8) :
    order.arrange (order.arrange bytes) = bytes := by
  cases order <;> simp [arrange]

@[simp]
theorem length_arrange (order : ByteOrder) (bytes : List UInt8) :
    (order.arrange bytes).length = bytes.length := by
  cases order <;> simp [arrange]

theorem ofName?_name (order : ByteOrder) : ofName? order.name = some order := by
  cases order <;> decide

end ByteOrder

end BinaryLayout
