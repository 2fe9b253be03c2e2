import SchemaForge.Path.Walk
import SchemaForge.Schema.Default

/-!
Fields of a document. A properties path leads to an object whose members are the fields of a node; the node
that owns it is one step up, and lists among its required names those fields that have to be present.
-/

namespace SchemaForge.Fields

/-- The member of an owner that lists the required names. -/
def requiredPath (propertiesPath : Path) : Path := propertiesPath.dropLast ++ [.str "required"]

/-- The required names of an owner. Without a list, or with an empty one, there are none. -/
def requiredNames (owner : Value) : Except Fault (List Value) := do
  let listed ← owner.getOrNull "required"
  if listed.truthy then listed.elements else return []

/-- A list of names without the first that equals a given one. -/
def dropName (name : Value) (names : List Value) : List Value := names.eraseP (·.same name)

/-- The document in which a field is required, or no longer required. There is none if nothing changes.
The list of required names goes when its last name does. -/
def setRequired (doc : Value) (propertiesPath : Path) (name : Value) (required : Bool) :
    Except Fault (Option Value) := do
  let owner ← doc.get propertiesPath.dropLast
  let names ← requiredNames owner
  let listed := name.occurs names
  if !required && listed then
    match dropName name names with
    | [] => return some (← doc.remove (requiredPath propertiesPath))
    | rest => return some (← doc.set (requiredPath propertiesPath) (.array rest))
  else if required && !listed then
    return some (← doc.set (requiredPath propertiesPath) (.array (names ++ [name])))
  else return none

def withRequired (doc : Value) (propertiesPath : Path) (name : Value) (required : Bool) :
    Except Fault Value := do
  return (← setRequired doc propertiesPath name required).getD doc

/-- The document without the name of a field that was removed among its owner's required names, if `prune` says so. -/
def pruneRequired (doc : Value) (path : Path) (prune : Bool) : Except Fault Value :=
  match path.reverse with
  | name :: .str "properties" :: _ => if prune then withRequired doc path.dropLast name false else .ok doc
  | _ => .ok doc

@[simp] theorem pruneRequired_field (doc : Value) (owner : Path) (name : Value) (prune : Bool) :
    pruneRequired doc (owner ++ [.str "properties", name]) prune =
      if prune then withRequired doc (owner ++ [.str "properties"]) name false else .ok doc := by
  have hpath : owner ++ [.str "properties", name] = (owner ++ [.str "properties"]) ++ [name] := by simp
  rw [hpath, pruneRequired, List.dropLast_concat, List.reverse_concat, List.reverse_concat]
  rfl

def renamedTo (old new v : Value) : Value := if v.equals old then new else v

/-- Members in which the key `old` is replaced by `new`, while a member that had the new key is gone. -/
def renameKey (old : Value) (newKey : Scalar) (ms : Members) : Members :=
  Members.ofPairs ((ms.filter fun m => !(Value.scalar m.1).equals (.scalar newKey)).map fun m =>
    (if (Value.scalar m.1).equals old then newKey else m.1, m.2))

def renameRequired (doc : Value) (propertiesPath : Path) (old new : Value) : Except Fault Value := do
  let owner ← doc.get propertiesPath.dropLast
  if ← owner.holds (.str "required") then
    match owner with
    | .object ms =>
        let names ← ((Members.find? (.str "required") ms).getD .null).elements
        doc.set (requiredPath propertiesPath) (.array (names.map (renamedTo old new)))
    | _ => .error .noMembers
  else return doc

/-- Members with a further one after the one whose key is `after`. -/
def insertAfter (after : Value) (k : Scalar) (v : Value) (ms : Members) : Members :=
  ms.flatMap fun m => if (Value.scalar m.1).equals after then [m, (k, v)] else [m]

/-! ### Names for new fields -/

def fieldName (number : Nat) : String := s!"field_{number}"

/-- How many names a value can hold at most. -/
def capacity : Value → Nat
  | .object ms => ms.length
  | .array xs => xs.length
  | .str s => s.toList.length
  | _ => 0

/-- The first number from `number` on whose name is free, among the next `fuel` ones or right after them. -/
def freeNumber (taken : Value) : (fuel number : Nat) → Except Fault Nat
  | 0, number => .ok number
  | fuel + 1, number => do
      if ← taken.holds (.str (fieldName number)) then freeNumber taken fuel (number + 1)
      else return number

/-- The first number from `number` on whose name is free. -/
def nextNumber (taken : Value) (number : Nat) : Except Fault Nat :=
  freeNumber taken (capacity taken + 1) number

end SchemaForge.Fields
