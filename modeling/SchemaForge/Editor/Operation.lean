import SchemaForge.Path.Written
import SchemaForge.Value.Shape

/-!
The operations of an editor, and how one is read from an object that names it and its arguments. Arguments
are any values; those whose name ends in `path` may be written as text. An operation is read in three
steps: its name, the written paths among its arguments, and the fit of the arguments to its parameters.
-/

namespace SchemaForge

inductive Operation where
  | replaceDocument (root : Value)
  | setValue (path value : Value)
  | setMock (path directive : Value)
  | setType (path type : Value)
  | rename (propertiesPath oldName newName : Value)
  | toggleRequired (propertiesPath name required : Value)
  | setAllRequired (required : Value)
  | deleteField (path prune : Value)
  | addSiblingField (propertiesPath after : Value)
  | addChildField (propertiesPath : Value)
  | toggleOpen (path value : Value)
  deriving DecidableEq

namespace Operation

inductive Name where
  | replaceDocument
  | setValue
  | setMock
  | setType
  | rename
  | toggleRequired
  | setAllRequired
  | deleteField
  | addSiblingField
  | addChildField
  | toggleOpen
  deriving DecidableEq

namespace Name

def text : Name → String
  | .replaceDocument => "replace_document"
  | .setValue => "set_value"
  | .setMock => "set_mock"
  | .setType => "set_type"
  | .rename => "rename"
  | .toggleRequired => "toggle_required"
  | .setAllRequired => "set_all_required"
  | .deleteField => "delete_field"
  | .addSiblingField => "add_sibling_field"
  | .addChildField => "add_child_field"
  | .toggleOpen => "toggle_open"

def all : List Name :=
  [.replaceDocument, .setValue, .setMock, .setType, .rename, .toggleRequired, .setAllRequired,
    .deleteField, .addSiblingField, .addChildField, .toggleOpen]

def ofText? (s : String) : Option Name := all.find? (·.text = s)

/-- The parameters of an operation, each with the value that it has when it is left out. -/
def parameters : Name → List (String × Option Value)
  | .replaceDocument => [("new_root", none)]
  | .setValue => [("path", none), ("value", none)]
  | .setMock => [("path", none), ("directive", none)]
  | .setType => [("path", none), ("new_type", none)]
  | .rename => [("properties_path", none), ("old_name", none), ("new_name", none)]
  | .toggleRequired => [("properties_path", none), ("name", none), ("required", none)]
  | .setAllRequired => [("required", none)]
  | .deleteField => [("path", none), ("prune_required", some (.bool true))]
  | .addSiblingField => [("properties_path", none), ("after", some .null)]
  | .addChildField => [("properties_path", none)]
  | .toggleOpen => [("path", none), ("value", some .null)]

def build (name : Name) (arg : String → Value) : Operation :=
  match name with
  | .replaceDocument => .replaceDocument (arg "new_root")
  | .setValue => .setValue (arg "path") (arg "value")
  | .setMock => .setMock (arg "path") (arg "directive")
  | .setType => .setType (arg "path") (arg "new_type")
  | .rename => .rename (arg "properties_path") (arg "old_name") (arg "new_name")
  | .toggleRequired => .toggleRequired (arg "properties_path") (arg "name") (arg "required")
  | .setAllRequired => .setAllRequired (arg "required")
  | .deleteField => .deleteField (arg "path") (arg "prune_required")
  | .addSiblingField => .addSiblingField (arg "properties_path") (arg "after")
  | .addChildField => .addChildField (arg "properties_path")
  | .toggleOpen => .toggleOpen (arg "path") (arg "value")

end Name

def nameOf (ms : Members) : Except Fault Name :=
  let given := (Members.find? (.str "op") ms).getD .null
  let unknown := Fault.unknownOperation given (Name.all.map Name.text)
  match given with
  | .str s =>
      match Name.ofText? s with
      | some name => .ok name
      | none => .error unknown
  | _ => .error unknown

def isPathName (name : String) : Bool := "path".toList.isSuffixOf name.toList

/-- An argument with its path read, if it is a path and written as text. -/
def argument (name : String) (v : Value) : Except Fault Value :=
  match v with
  | .str s => if isPathName name then do return .array (← Path.parse s) else .ok v
  | _ => .ok v

def arguments : Members → Except Fault (List (String × Value))
  | [] => .ok []
  | (.str name, v) :: ms =>
      if name = "op" then arguments ms
      else do
        let a ← argument name v
        return (name, a) :: (← arguments ms)
  | _ :: _ => .error .wrongShape

/-- Refuses the first argument that an operation does not have. -/
def checkKnown (name : Name) : List (String × Value) → Except Fault Unit
  | [] => .ok ()
  | (a, _) :: rest =>
      if a = "self" then .error (.reservedArgument name.text a)
      else if name.parameters.any (·.1 = a) then checkKnown name rest
      else .error (.unexpectedArgument name.text a)

def missing (name : Name) (args : List (String × Value)) : List String :=
  (name.parameters.filter fun p => p.2.isNone && !args.any (·.1 = p.1)).map (·.1)

def valueOf (name : Name) (args : List (String × Value)) (parameter : String) : Value :=
  match args.lookup parameter with
  | some v => v
  | none => ((name.parameters.lookup parameter).join).getD .null

def ofValue (v : Value) : Except Fault Operation := do
  let ms ← v.members
  let name ← nameOf ms
  let args ← arguments ms
  checkKnown name args
  match missing name args with
  | [] => return name.build (valueOf name args)
  | lacking => .error (.missingArguments name.text lacking)

end Operation

end SchemaForge
