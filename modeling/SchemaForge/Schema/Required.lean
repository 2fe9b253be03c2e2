import SchemaForge.Schema.Normal

/-!
The bulk switch for required fields: every object node requires all of its properties, or none. The switch
goes through the properties of object nodes that are containers and through the items of array nodes.
-/

namespace SchemaForge.Schema

/-- The list of required names when all properties of an object are required. -/
def allNames (properties : Members) : Value := .array (properties.map fun m => .scalar m.1)

/-- Members in which all of the given properties are required, or none. -/
def switchNames (required : Bool) (properties ms : Members) : Members :=
  if required then Members.insert (.str "required") (allNames properties) ms
  else Members.erase (.str "required") ms

def declaresContainer : Value → Bool
  | .object ms => (Members.find? (.str "type") ms).any isContainerType
  | _ => false

mutual

/-- A value in which every object node that the switch reaches requires all of its properties, or none. -/
def switchRequired (required : Bool) : Value → Value
  | .object ms =>
      match Members.find? (.str "type") ms with
      | some (.str "object") =>
          match Members.find? (.str "properties") ms with
          | some (.object ps) =>
              .object (switchNames required ps (switchProperties required ms))
          | _ => .object ms
      | some (.str "array") => .object (switchItems required ms)
      | _ => .object ms
  | v => v

def switchProperties (required : Bool) : List (Scalar × Value) → List (Scalar × Value)
  | [] => []
  | (k, v) :: ms =>
      (if k = .str "properties" then
        match v with
        | .object ps => (k, .object (switchEach required ps))
        | _ => (k, v)
      else (k, v)) :: switchProperties required ms

def switchEach (required : Bool) : List (Scalar × Value) → List (Scalar × Value)
  | [] => []
  | (k, p) :: ps =>
      (k, if declaresContainer p then switchRequired required p else p) :: switchEach required ps

def switchItems (required : Bool) : List (Scalar × Value) → List (Scalar × Value)
  | [] => []
  | (k, v) :: ms =>
      (if k = .str "items" then (k, switchRequired required v) else (k, v)) :: switchItems required ms

end

def applyRequired (doc : Value) (required : Bool) : Except Fault Value := do
  let _ ← doc.members
  return switchRequired required doc

theorem switchEach_eq_map (required : Bool) (ps : Members) :
    switchEach required ps =
      ps.map fun m => (m.1, if declaresContainer m.2 then switchRequired required m.2 else m.2) := by
  induction ps with
  | nil => simp [switchEach]
  | cons m ps ih => simp [switchEach, ih]

end SchemaForge.Schema
