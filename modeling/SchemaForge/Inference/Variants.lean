import SchemaForge.Value.Members

/-!
Sets of variants: lists of schemas in which no two are alike. Two schemas are alike if they are the same
text but for the order of the members of their objects, so that numbers written differently differ.
-/

namespace SchemaForge

namespace Value

mutual

/-- Whether two values differ at most in the order of members. -/
def alike : (a b : Value) → Bool
  | .scalar a, .scalar b => a = b
  | .array xs, .array ys => alikeElements xs ys
  | .object ms, .object ns => ms.length = ns.length && alikeMembers ms ns
  | _, _ => false

def alikeElements : (xs ys : List Value) → Bool
  | [], [] => true
  | x :: xs, y :: ys => alike x y && alikeElements xs ys
  | _, _ => false

/-- Whether each of the first members has one alike among the second. -/
def alikeMembers : (ms ns : List (Scalar × Value)) → Bool
  | [], _ => true
  | (k, v) :: ms, ns =>
      (match Members.find? k ns with
        | some w => alike v w
        | none => false) && alikeMembers ms ns

end

end Value

namespace Inference

/-- The candidates that are like nothing before them, after the variants that are there. -/
def addVariants (variants : List Value) : List Value → List Value
  | [] => variants
  | c :: cs => addVariants (if variants.any (c.alike ·) then variants else variants ++ [c]) cs

end Inference

end SchemaForge
