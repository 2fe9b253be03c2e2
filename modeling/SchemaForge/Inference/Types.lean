import SchemaForge.Value.Shape

/-!
The two merges that inference rests on: types, which are a word or a list of words and only ever grow, and
required names, which start from the keys of one object and only ever shrink.
-/

namespace SchemaForge.Inference

/-- The types that a value of the keyword `type` stands for. -/
def typeList : Value → Except Fault (List Value)
  | .null => .ok []
  | .str s => .ok [.str s]
  | v => v.elements

/-- The values of a list that do not occur before, after the values of `seen`. -/
def addDistinct (seen : List Value) : List Value → List Value
  | [] => seen
  | x :: xs => addDistinct (if x.occurs seen then seen else seen ++ [x]) xs

def ofTypeList : List Value → Value
  | [] => .null
  | [t] => t
  | ts => .array ts

/-- Both types, those of the first one before the others. -/
def mergeTypes (first second : Value) : Except Fault Value := do
  return ofTypeList (addDistinct [] ((← typeList first) ++ (← typeList second)))

/-- The names that a test does not drop. -/
def keepNames (carries : Value → Except Fault Bool) : List Value → Except Fault (List Value)
  | [] => .ok []
  | n :: ns => do
      let kept ← carries n
      let rest ← keepNames carries ns
      return if kept then n :: rest else rest

/-- The required names after one more object with the given keys: all of them if there were no names yet,
and else the names that are among them. -/
def narrowRequired (required : Option (List Value)) (keys : List Scalar) : Except Fault (List Value) :=
  match required with
  | none => .ok (keys.map .scalar)
  | some names => keepNames (fun n => do
      let k ← n.key
      return keys.any (·.same k)) names

/-- Required names narrowed by a sample that is given as any value. -/
def intersectRequired (required sample : Value) : Except Fault (List Value) := do
  match required with
  | .null => sample.elements
  | names => keepNames sample.holds (← names.elements)

end SchemaForge.Inference
