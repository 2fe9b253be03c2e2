import SchemaForge.Editor.Fields
import SchemaForge.Editor.Operation
import SchemaForge.Editor.State
import SchemaForge.Notice
import SchemaForge.Schema.Required

/-!
What operations do. An action works on an editor in place, step by step, and may fail on the way: what it has
done until then stays done, in the tree view as well as in the document. A document is committed by putting it
in the place of the old one and calling the listeners, one after the other.
-/

namespace SchemaForge

/-- What an action works on: the editor, and what has come of it so far. That is the documents that were
committed, the calls of listeners, each with the document that the listener was told of, and the notices. -/
structure Workspace where
  editor : Editor
  announced : List Value
  calls : List (Nat × Value)
  notices : List Notice
  deriving DecidableEq

/-- A computation on a workspace. If it fails, the workspace is as it was left. -/
abbrev Action := ExceptT Fault (StateM Workspace)

/-- Whether a value stands for nothing to write. -/
def isBlankValue : Value → Bool
  | .null => true
  | .str s => s = ""
  | _ => false

/-- The directive as the value of the keyword `mock`. -/
def mockValue (directive : Value) : Value :=
  if directive.truthy then .object [(.str "mock", directive)] else .null

namespace Action

/-! ### Steps -/

def document : Action Value := do return (← get).editor.document

def tell (notice : Notice) : Action Unit :=
  modify fun w => { w with notices := w.notices ++ [notice] }

/-- Takes a name that a value does not hold. If the value cannot be searched, one number is lost. -/
def takeName (taken : Value) : Action String := do
  let w ← get
  match Fields.nextNumber taken w.editor.nextField with
  | .ok number =>
      set { w with editor := { w.editor with nextField := number + 1 } }
      return Fields.fieldName number
  | .error fault =>
      set { w with editor := { w.editor with nextField := w.editor.nextField + 1 } }
      throw fault

/-- Changes the tree view, there and then. -/
def changeNodes (change : OpenNodes → OpenNodes) : Action Unit :=
  modify fun w => { w with editor := { w.editor with openNodes := change w.editor.openNodes } }

/-- Tells one listener of a document. -/
def call (doc : Value) (listener : Nat) : Action Unit :=
  modify fun w => { w with calls := w.calls ++ [(listener, doc)] }

/-- Puts a document in the place of the old one, and then calls the listeners that there are. -/
def commit (doc : Value) : Action Unit := do
  modify fun w => { w with editor := { w.editor with document := doc }, announced := w.announced ++ [doc] }
  (← get).editor.listeners.forM (call doc)

/-! ### Operations -/

def replaceDocument (root : Value) : Action Value := do
  let new ← prepare root
  tell (.replacing (← new.getOrNull "type"))
  commit new
  return .null

def setAllRequired (required : Value) : Action Value := do
  tell (.switchingRequired required)
  commit (← Schema.applyRequired (← document) required.truthy)
  return .null

/-- Writes a value at a path. A blank value removes what is there; where nothing is there, the path up to
its last segment has to lead somewhere. -/
def setValue (path : Path) (v : Value) : Action Value := do
  let doc ← document
  if isBlankValue v then
    if ← doc.has path then
      tell (.deleting path)
      commit (← doc.remove path)
      return .null
    else
      let _ ← doc.get path.dropLast
      return .null
  else
    tell (.setting path)
    commit (← doc.set path v)
    return .null

/-- Gives a node the shape of another type. Its description stays. -/
def setType (path : Path) (type : Value) : Action Value := do
  let doc ← document
  let node ← doc.get path
  let old ← node.getOrNull "type"
  if old.equals type then return .null
  else
    let shape ← Schema.ofType type
    let description ← node.getOrNull "description"
    let fresh := if description.truthy then shape.setChild (.str "description") description else shape
    tell (.retyping path old type)
    commit (← doc.set path fresh)
    return .null

/-- The entry of a renamed object goes with it in the tree view. -/
def carryNode (path : Path) (old new node : Value) : Action Unit :=
  match node with
  | .object ms =>
      if Members.has (.str "properties") ms then
        changeNodes (OpenNodes.move (Path.join (path ++ [old, .str "properties"]))
          (Path.join (path ++ [new, .str "properties"])))
      else pure ()
  | _ => pure ()

/-- Renames a field in its place, unless the new name is taken. -/
def rename (path : Path) (old new : Value) : Action Value := do
  let doc ← document
  let props ← doc.get path
  if new.equals old then return .bool false
  else
    let ms ← props.members
    let newKey ← new.key
    if (Members.find? newKey ms).getD .null ≠ .null then
      tell (.renameRejected old new)
      return .bool false
    else
      match Members.find? (← old.key) ms with
      | none => throw (.pathNotFound (path ++ [old]) path.length)
      | some node =>
          let moved ← doc.set path (.object (Fields.renameKey old newKey ms))
          let named ← Fields.renameRequired moved path old new
          carryNode path old new node
          tell (.renamed old new path)
          commit named
          return .bool true

def toggleRequired (path : Path) (name : Value) (required : Bool) : Action Value := do
  match ← Fields.setRequired (← document) path name required with
  | none => return .null
  | some new =>
      commit new
      return .null

/-- Removes a field and, if `prune` says so, its name from the owner's required names. -/
def deleteField (path : Path) (prune : Bool) : Action Value := do
  let doc ← document
  let _ ← doc.get path
  let removed ← doc.remove path
  let pruned ← Fields.pruneRequired removed path prune
  tell (.deleted path)
  commit pruned
  return .null

/-- Adds a text field to an object, after a given key if there is one, and makes it required. -/
def addSiblingField (path : Path) (after : Value) : Action Value := do
  let doc ← document
  let props ← doc.get path
  if after ≠ .null then
    if !(← props.holds after) then throw (.pathNotFound (path ++ [after]) path.length)
  let name ← takeName props
  let ms ← if after = .null then
      pure (Members.insert (.str name) Schema.stringNode (← props.toMembers))
    else
      pure (Fields.insertAfter after (.str name) Schema.stringNode (← props.members))
  let added ← doc.set path (.object ms)
  let required ← Fields.withRequired added path (.str name) true
  tell (.addedField name path)
  commit required
  return .str name

/-- Adds a text field at the end of an object that may be missing yet, makes it required, and opens the
object in the tree view. -/
def addChildField (path : Path) : Action Value := do
  let doc ← document
  let _ ← doc.get path.dropLast
  let props ← if ← doc.has path then liftM (doc.get path) else pure (.object [])
  let name ← takeName props
  let ms ← props.toMembers
  let added ← doc.set path (.object (Members.insert (.str name) Schema.stringNode ms))
  let required ← Fields.withRequired added path (.str name) true
  changeNodes (OpenNodes.insert path.join true)
  tell (.addedChild name path)
  commit required
  return .str name

/-- Opens or closes a node of the tree view, or turns it over if nothing is said. -/
def toggleOpen (path : Path) (value : Value) : Action Value := do
  let key := path.join
  let nodes := (← get).editor.openNodes
  let isOpen := if value = .null then !nodes.isOpen key else value.truthy
  changeNodes (OpenNodes.insert key isOpen)
  return .bool isOpen

end Action

def Operation.action : Operation → Action Value
  | .replaceDocument root => Action.replaceDocument root
  | .setValue path v => do Action.setValue (← path.elements) v
  | .setMock path directive => do
      Action.setValue ((← path.elements) ++ [.str "mock"]) (mockValue directive)
  | .setType path type => do Action.setType (← path.elements) type
  | .rename path old new => do Action.rename (← path.elements) old new
  | .toggleRequired path name required => do
      Action.toggleRequired (← path.elements) name required.truthy
  | .setAllRequired required => Action.setAllRequired required
  | .deleteField path prune => do Action.deleteField (← path.elements) prune.truthy
  | .addSiblingField path after => do Action.addSiblingField (← path.elements) after
  | .addChildField path => do Action.addChildField (← path.elements)
  | .toggleOpen path value => do Action.toggleOpen (← path.elements) value

namespace Action

def apply (description : Value) : Action Value := do
  let operation ← Operation.ofValue description
  operation.action

/-- Carries out operations in turn, up to the first one that fails, and replies with their replies. -/
def applyEach : List Value → Action (List Value)
  | [] => return []
  | d :: ds => do
      let reply ← apply d
      return reply :: (← applyEach ds)

def applyAll (descriptions : Value) : Action Value := do
  return .array (← applyEach (← descriptions.elements))

end Action

namespace Editor

/-- What comes of asking an editor to do something: the editor afterwards, the documents that it announced,
its notices, and its reply or the fault that stopped it. -/
structure Outcome where
  editor : Editor
  announced : List Value
  notices : List Notice
  reply : Except Fault Value

def workspace (editor : Editor) : Workspace := ⟨editor, [], [], []⟩

def outcome (editor : Editor) (action : Action Value) : Outcome :=
  let (reply, w) := action.run.run editor.workspace
  ⟨w.editor, w.announced, w.notices, reply⟩

def perform (editor : Editor) (operation : Operation) : Outcome := editor.outcome operation.action

def apply (editor : Editor) (description : Value) : Outcome := editor.outcome (Action.apply description)

def applyAll (editor : Editor) (descriptions : Value) : Outcome :=
  editor.outcome (Action.applyAll descriptions)

end Editor

end SchemaForge
