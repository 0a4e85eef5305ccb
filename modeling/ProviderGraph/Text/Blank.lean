import ProviderGraph.Text.Range

/-!
# Blank characters

The characters with the property `White_Space`, and removal of a run of them at either end of a
text. Blanks between other characters stay.
-/

namespace ProviderGraph.Text

/-- The characters with the property `White_Space`. -/
def blankRanges : RangeTable :=
  #[(0x9, 0xd), (0x20, 0x20), (0x85, 0x85), (0xa0, 0xa0), (0x1680, 0x1680), (0x2000, 0x200a),
    (0x2028, 0x2029), (0x202f, 0x202f), (0x205f, 0x205f), (0x3000, 0x3000)]

def isBlank (c : Char) : Bool := blankRanges.holds c

def trimBlanks (cs : List Char) : List Char :=
  ((cs.dropWhile isBlank).reverse.dropWhile isBlank).reverse

@[simp] theorem trimBlanks_nil : trimBlanks [] = [] := rfl

end ProviderGraph.Text
