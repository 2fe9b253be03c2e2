/-!
Sets of characters given as lists of ranges of scalar values, the form in which the properties of
characters are tabulated.
-/

namespace SchemaForge.Text

/-- Ranges of scalar values, both ends included. -/
abbrev CharRanges := List (Nat × Nat)

def CharRanges.has (ranges : CharRanges) (c : Char) : Bool :=
  ranges.any fun r => r.1 ≤ c.toNat && c.toNat ≤ r.2

end SchemaForge.Text
