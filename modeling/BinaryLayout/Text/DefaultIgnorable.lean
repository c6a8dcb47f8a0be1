import BinaryLayout.Text.Ranges

/-!
# Ignorable characters

A character is **ignorable by default** when nothing is drawn for it where a program does not know
it: fillers, joiners, marks of direction, variation selectors, and code points set aside for more of
them. Some of these are letters or marks by their category, such as the Hangul fillers. The ranges
are in increasing order, each given by its first and its last code point.
-/

namespace BinaryLayout.Text

/-- The ranges of code points that are ignorable by default. -/
def defaultIgnorableRanges : List (Nat × Nat) :=
  [(0x00ad, 0x00ad), (0x034f, 0x034f), (0x061c, 0x061c), (0x115f, 0x1160), (0x17b4, 0x17b5),
   (0x180b, 0x180f), (0x200b, 0x200f), (0x202a, 0x202e), (0x2060, 0x206f), (0x3164, 0x3164),
   (0xfe00, 0xfe0f), (0xfeff, 0xfeff), (0xffa0, 0xffa0), (0xfff0, 0xfff8), (0x1bca0, 0x1bca3),
   (0x1d173, 0x1d17a), (0xe0000, 0xe0fff)]

theorem defaultIgnorableRanges_increasing : Increasing defaultIgnorableRanges := by
  decide +kernel

/-- A character is ignorable by default when it lies in one of the ignorable ranges. -/
def isDefaultIgnorable (c : Char) : Bool := inRanges defaultIgnorableRanges c.toNat

end BinaryLayout.Text
