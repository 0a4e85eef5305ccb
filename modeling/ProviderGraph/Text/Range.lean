/-!
# Ranges of code points

A property of characters is tabulated as the closed ranges of code points that have it, in
increasing order. A character has the property when one of the ranges holds its code point.
-/

namespace ProviderGraph.Text

/-- Closed ranges of code points, in increasing order. -/
abbrev RangeTable := Array (Nat × Nat)

def RangeTable.holds (t : RangeTable) (c : Char) : Bool :=
  t.any fun r => decide (r.1 ≤ c.toNat) && decide (c.toNat ≤ r.2)

end ProviderGraph.Text
