/-!
# Blank characters

The characters with the property `White_Space`, and the chunks of a text
between them. A chunk is never empty and holds no blank.
-/

namespace PhraseStructure.Text

/-- The code points with the property `White_Space`, as closed ranges. -/
def blankRanges : List (Nat × Nat) :=
  [(0x09, 0x0d), (0x20, 0x20), (0x85, 0x85), (0xa0, 0xa0), (0x1680, 0x1680), (0x2000, 0x200a),
    (0x2028, 0x2029), (0x202f, 0x202f), (0x205f, 0x205f), (0x3000, 0x3000)]

def isBlank (c : Char) : Bool :=
  blankRanges.any fun r ↦ r.1 ≤ c.toNat && c.toNat ≤ r.2

def chunks (text : String) : List String :=
  ((text.toList.splitOnP isBlank).filter fun run ↦ !run.isEmpty).map String.ofList

def trim (text : String) : String :=
  String.ofList (((text.toList.dropWhile isBlank).reverse.dropWhile isBlank).reverse)

end PhraseStructure.Text
