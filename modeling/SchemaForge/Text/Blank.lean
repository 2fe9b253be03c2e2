import SchemaForge.Text.CharRanges

/-!
White space, in the wide sense in which a path may be surrounded by it: the characters whose
bidirectional class is a separator or white space, together with the space separators. Beside the
spaces and the line ends these are the four information separators below the space.
-/

namespace SchemaForge.Text

def blankRanges : CharRanges :=
  [(0x9, 0xd), (0x1c, 0x20), (0x85, 0x85), (0xa0, 0xa0), (0x1680, 0x1680), (0x2000, 0x200a),
   (0x2028, 0x2029), (0x202f, 0x202f), (0x205f, 0x205f), (0x3000, 0x3000)]

def isBlank (c : Char) : Bool := blankRanges.has c

/-- A text without the white space at its two ends. -/
def trim (cs : List Char) : List Char :=
  ((cs.dropWhile isBlank).reverse.dropWhile isBlank).reverse

@[simp] theorem trim_nil : trim [] = [] := rfl

end SchemaForge.Text
