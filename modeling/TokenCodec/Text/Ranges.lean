/-!
# Sets of characters as ranges

A property of characters is kept as an array of code point ranges in ascending
order, both ends belonging to the range.
-/

namespace TokenCodec.Text

/-- Ranges of code points, each from its first to its last member. -/
abbrev Ranges := Array (Nat × Nat)

def Ranges.contains (ranges : Ranges) (c : Char) : Bool :=
  ranges.any fun range => range.1 ≤ c.toNat && c.toNat ≤ range.2

/-- The characters at the beginning of a range, and those after its end. -/
def Ranges.corners (ranges : Ranges) : List Char :=
  ranges.toList.flatMap fun range => [Char.ofNat range.1, Char.ofNat (range.2 + 1)]

end TokenCodec.Text
