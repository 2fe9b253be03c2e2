import SchemaForge.Schema.Default

/-!
The finished form of an inferred node: of its keywords only those remain that inference may state, in one
fixed order, and all the way down. Required names are left out when there are none, and missing items
become a text.
-/

namespace SchemaForge.Inference

def keywords : List String := ["type", "format", "title", "required", "properties", "items", "oneOf"]

/-- The finished form of a scalar. A text is a node without keywords, if it does not contain one. -/
def scalarForm (s : Scalar) : Except Fault Value := do
  if ← keywords.anyM (fun w => (Value.scalar s).holds (.str w)) then .error .noMembers
  else return .object []

/-- The members at a keyword, copied as they are. -/
def copied (word : String) (ms : Members) : Members :=
  match Members.find? (.str word) ms with
  | none => []
  | some v => [(.str word, v)]

/-- The required names, if there are any, as a list. -/
def requiredForm (ms : Members) : Except Fault Members := do
  match Members.find? (.str "required") ms with
  | none => return []
  | some v => if v.truthy then return [(.str "required", .array (← v.elements))] else return []

mutual

def nodeForm : Value → Except Fault Value
  | .object ms => do
      let required ← requiredForm ms
      let properties ← propertiesForm ms
      let items ← itemsForm ms
      let oneOf ← variantsForm ms
      return .object (copied "type" ms ++ copied "format" ms ++ copied "title" ms ++ required ++
        properties ++ items ++ oneOf)
  | .array xs =>
      if keywords.any fun w => (Value.str w).occurs xs then .error .noMembers else .ok (.object [])
  | .scalar s => scalarForm s

def propertiesForm : List (Scalar × Value) → Except Fault Members
  | [] => .ok []
  | (k, v) :: ms =>
      if k = .str "properties" then
        match v with
        | .object ps => do return [(k, .object (← eachForm ps))]
        | _ => .error .wrongShape
      else propertiesForm ms

def eachForm : List (Scalar × Value) → Except Fault Members
  | [] => .ok []
  | (k, p) :: ps => do
      let node ← nodeForm p
      return (k, node) :: (← eachForm ps)

def itemsForm : List (Scalar × Value) → Except Fault Members
  | [] => .ok []
  | (k, v) :: ms =>
      if k = .str "items" then
        if v.truthy then do return [(k, ← nodeForm v)] else .ok [(k, Schema.stringNode)]
      else itemsForm ms

def variantsForm : List (Scalar × Value) → Except Fault Members
  | [] => .ok []
  | (k, v) :: ms =>
      if k = .str "oneOf" then
        match v with
        | .array xs => do return [(k, .array (← allForms xs))]
        | v => do
            let xs ← v.elements
            return [(k, .array (← xs.mapM fun
              | .scalar s => scalarForm s
              | _ => .ok (.object [])))]
      else variantsForm ms

def allForms : List Value → Except Fault (List Value)
  | [] => .ok []
  | x :: xs => do
      let node ← nodeForm x
      return node :: (← allForms xs)

end

end SchemaForge.Inference
