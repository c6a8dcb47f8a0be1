import BinaryLayout.Bytes.Word

/-!
# Operations of a machine

Extents and words of a machine have a fixed width, and not every operation on them has a result. A
difference may be below zero, a product too large, the amount of a shift as large as the word; a
slice may reach behind the end of its byte string, and a number may not fit the bytes that it is
written to. Such an operation **traps**: there is no outcome at all, and nothing is said of what the
machine does then.

A `Machine` computation is put together from these operations. If it does not trap, it has a result
or fails with a cause. Operations that saturate or are checked always have a result, and are the
ones of `Extent`.

Signed integers are words of 64 bits in two's complement.
-/

namespace BinaryLayout

/-- A computation of a machine, which may fail or trap. -/
abbrev Machine (ε α : Type) := ExceptT ε Option α

namespace Machine

variable {ε α : Type}

/-- The computation that traps. -/
def trap : Machine ε α := ExceptT.mk none

/-- What is worked out without an operation that could trap. -/
def ofExcept (outcome : Except ε α) : Machine ε α := ExceptT.mk (some outcome)

/-- The result of an operation within its range. -/
def within (range : Prop) [Decidable range] (result : α) : Machine ε α :=
  if range then pure result else trap

/-- The computation with its failures turned into those of a store. -/
def toStore (action : Machine AccessError α) : Machine StoreError α :=
  ExceptT.mk (action.run.map (·.mapError AccessError.toStoreError))

/-! ### Extents -/

/-- The sum. -/
def add (a b : Nat) : Machine ε Nat := within (a + b ≤ Extent.limit) (a + b)

/-- The difference. -/
def sub (a b : Nat) : Machine ε Nat := within (b ≤ a) (a - b)

/-- The product. -/
def mul (a b : Nat) : Machine ε Nat := within (a * b ≤ Extent.limit) (a * b)

/-- The quotient, rounded up. -/
def divCeil (a b : Nat) : Machine ε Nat := do
  let quotient ← within (b ≠ 0) (a / b)
  if 0 < a % b then add quotient 1 else return quotient

/-! ### Words -/

/-- The word of `width` bits moved up by `amount` bits, without those moved out of it. -/
def shiftLeft (width word amount : Nat) : Machine ε Nat :=
  within (amount < width) (Bytes.lowBits (word <<< amount) width)

/-- The word of `width` bits moved down by `amount` bits. -/
def shiftRight (width word amount : Nat) : Machine ε Nat :=
  within (amount < width) (word >>> amount)

/-- The word of `width` bits with all of them inverted. -/
def complement (width word : Nat) : Nat := word ^^^ (Bytes.patterns width - 1)

/-- The word of 64 bits with its bytes in the other order. -/
def reverseBytes (word : Nat) : Nat := Bytes.toNat (Bytes.ofNat 8 word).reverse

/-- The word of 64 bits as a signed integer. -/
def toSigned (word : Nat) : Int := Bytes.signExtend word 64

/-- The signed integer moved down by `amount` bits, its sign kept. -/
def shiftRightSigned (i : Int) (amount : Nat) : Machine ε Int := within (amount < 64) (i >>> amount)

/-- The signed integer with the other sign. The least one has no counterpart. -/
def negate (i : Int) : Machine ε Int := within (i ≠ -(Bytes.patterns 63 : Int)) (-i)

/-! ### Lists and byte strings -/

/-- The entry of a list at a position. -/
def entry (list : List α) (position : Nat) : Machine ε α :=
  match list[position]? with
  | some entry => pure entry
  | none => trap

/-- The first `size` bytes. -/
def front (bytes : List UInt8) (size : Nat) : Machine ε (List UInt8) :=
  within (size ≤ bytes.length) (bytes.take size)

/-- The first `size` bytes, and those after them. -/
def split (bytes : List UInt8) (size : Nat) : Machine ε (List UInt8 × List UInt8) :=
  within (size ≤ bytes.length) (bytes.take size, bytes.drop size)

/-- The bytes overwritten with as many others. -/
def copy (bytes source : List UInt8) : Machine ε (List UInt8) :=
  within (bytes.length = source.length) source

/-! ### Numbers in bytes -/

/-- The number in the first `size` bytes. It has at most `capacity` bytes. -/
def readNumber (capacity : Nat) (bytes : List UInt8) (size : Nat) (order : ByteOrder) :
    Machine ε Nat :=
  within (1 ≤ size ∧ size ≤ capacity ∧ size ≤ bytes.length)
    (Bytes.toNat (order.arrange (bytes.take size)))

/-- The bytes with a number in the first `size` of them, which have to hold it. It has at most
`capacity` bytes. -/
def writeNumber (capacity : Nat) (bytes : List UInt8) (number size : Nat) (order : ByteOrder) :
    Machine ε (List UInt8) :=
  within ((1 ≤ size ∧ size ≤ capacity ∧ size ≤ bytes.length) ∧ number < Bytes.patterns (8 * size))
    (order.arrange (Bytes.ofNat size number) ++ bytes.drop size)

end Machine

end BinaryLayout
