/-!
# Parts of binary numbers

A number is looked at as its bits, the lowest ones last. `lowBits n width` keeps the `width` lowest
bits, and `signExtend` takes them for an integer in two's complement. `extract` is a run of bits
further up, and `splice` puts another run into its place; neither looks at bits beyond the run.
-/

namespace BinaryLayout.Bytes

/-- The number of patterns of so many bits: a power of two. -/
def patterns (width : Nat) : Nat := Nat.pow 2 width

/-- The `width` lowest bits of a number. -/
def lowBits (n width : Nat) : Nat := n % patterns width

/-- The `width` lowest bits of a number as an integer in two's complement: the representative of
its residue class that lies nearest to zero. -/
def signExtend (n width : Nat) : Int := Int.bmod n (patterns width)

/-- The `width` bits of `n` above its `shift` lowest ones. -/
def extract (n shift width : Nat) : Nat := lowBits (n / patterns shift) width

/-- The number `n` with the `width` bits above its `shift` lowest ones replaced by those of
`value`. -/
def splice (n shift width value : Nat) : Nat :=
  n / patterns (shift + width) * patterns (shift + width) +
    lowBits value width * patterns shift + lowBits n shift

end BinaryLayout.Bytes
