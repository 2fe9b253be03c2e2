import SchemaForge.Value.Shape

/-!
Formats that are not on a list: those that a node names itself, then those of its properties, then those
of its items.
-/

namespace SchemaForge.Schema

/-- The format that a node names, if it is a text off the list. -/
def ownFormat (allowed : List String) (ms : Members) : List String :=
  match Members.find? (.str "format") ms with
  | some (.str f) => if allowed.contains f then [] else [f]
  | _ => []

mutual

/-- The formats off the list, in the order in which they are found. Properties that are neither an object
nor empty are a fault. -/
def unknownFormats (allowed : List String) : Value → Except Fault (List String)
  | .object ms => do
      let inProperties ← propertiesFormats allowed ms
      let inItems ← itemsFormats allowed ms
      return ownFormat allowed ms ++ inProperties ++ inItems
  | _ => .ok []

def propertiesFormats (allowed : List String) : List (Scalar × Value) → Except Fault (List String)
  | [] => .ok []
  | (k, v) :: ms =>
      if k = .str "properties" then
        match v with
        | .object ps => eachFormats allowed ps
        | v => if v.truthy then .error .wrongShape else .ok []
      else propertiesFormats allowed ms

def eachFormats (allowed : List String) : List (Scalar × Value) → Except Fault (List String)
  | [] => .ok []
  | (_, p) :: ps => do
      let here ← unknownFormats allowed p
      let later ← eachFormats allowed ps
      return here ++ later

def itemsFormats (allowed : List String) : List (Scalar × Value) → Except Fault (List String)
  | [] => .ok []
  | (k, v) :: ms =>
      if k = .str "items" then unknownFormats allowed v else itemsFormats allowed ms

end

end SchemaForge.Schema
