import SchemaForge.Editor.Action

/-!
What each operation would change. A draft is worked out from the document and the tree view without
touching either; it ends with the changes to make or with a fault. Two things are used up along the way and
stay used up when the draft fails: numbers for new fields, and the notices of what was about to be done.
The drafts are what is reasoned about; that operations, which work in place, do what their drafts say is the
matter of `Proofs.Editor.Actions`.
-/

namespace SchemaForge

/-- What drafts use up: the next number for a new field, and the notices so far. -/
structure Ledger where
  nextField : Nat
  notices : List Notice
  deriving DecidableEq

/-- A draft, which may fail and still have used up something. -/
abbrev Draft := ExceptT Fault (StateM Ledger)

/-- The changes that an operation makes: a new document, if it commits one, the tree view after it, and
its reply. -/
structure Change where
  document : Option Value
  openNodes : OpenNodes
  reply : Value
  deriving DecidableEq

namespace Draft

def tell (notice : Notice) : Draft Unit :=
  modify fun ledger => { ledger with notices := ledger.notices ++ [notice] }

def takeName (taken : Value) : Draft String := do
  let ledger ← get
  match Fields.nextNumber taken ledger.nextField with
  | .ok number =>
      set { ledger with nextField := number + 1 }
      return Fields.fieldName number
  | .error fault =>
      set { ledger with nextField := ledger.nextField + 1 }
      throw fault

variable (doc : Value) (nodes : OpenNodes)

def commit (new : Value) : Change := ⟨some new, nodes, .null⟩

def nothing (reply : Value) : Change := ⟨none, nodes, reply⟩

def replaceDocument (root : Value) : Draft Change := do
  let new ← prepare root
  tell (.replacing (← new.getOrNull "type"))
  return commit nodes new

def setAllRequired (required : Value) : Draft Change := do
  tell (.switchingRequired required)
  return commit nodes (← Schema.applyRequired doc required.truthy)

def setValue (path : Path) (v : Value) : Draft Change := do
  if isBlankValue v then
    if ← doc.has path then
      tell (.deleting path)
      return commit nodes (← doc.remove path)
    else
      let _ ← doc.get path.dropLast
      return nothing nodes .null
  else
    tell (.setting path)
    return commit nodes (← doc.set path v)

def setType (path : Path) (type : Value) : Draft Change := do
  let node ← doc.get path
  let old ← node.getOrNull "type"
  if old.equals type then return nothing nodes .null
  else
    let shape ← Schema.ofType type
    let description ← node.getOrNull "description"
    let fresh := if description.truthy then shape.setChild (.str "description") description else shape
    tell (.retyping path old type)
    return commit nodes (← doc.set path fresh)

def renamedNodes (path : Path) (old new : Value) (node : Value) : OpenNodes :=
  match node with
  | .object ms =>
      if Members.has (.str "properties") ms then
        OpenNodes.move (Path.join (path ++ [old, .str "properties"]))
          (Path.join (path ++ [new, .str "properties"])) nodes
      else nodes
  | _ => nodes

def rename (path : Path) (old new : Value) : Draft Change := do
  let props ← doc.get path
  if new.equals old then return nothing nodes (.bool false)
  else
    let ms ← props.members
    let newKey ← new.key
    if (Members.find? newKey ms).getD .null ≠ .null then
      tell (.renameRejected old new)
      return nothing nodes (.bool false)
    else
      match Members.find? (← old.key) ms with
      | none => throw (.pathNotFound (path ++ [old]) path.length)
      | some node =>
          let moved ← doc.set path (.object (Fields.renameKey old newKey ms))
          let named ← Fields.renameRequired moved path old new
          tell (.renamed old new path)
          return ⟨some named, renamedNodes nodes path old new node, .bool true⟩

def toggleRequired (path : Path) (name : Value) (required : Bool) : Draft Change := do
  return ⟨← Fields.setRequired doc path name required, nodes, .null⟩

def deleteField (path : Path) (prune : Bool) : Draft Change := do
  let _ ← doc.get path
  let removed ← doc.remove path
  let pruned ← Fields.pruneRequired removed path prune
  tell (.deleted path)
  return commit nodes pruned

def addSiblingField (path : Path) (after : Value) : Draft Change := do
  let props ← doc.get path
  if after ≠ .null then
    if !(← props.holds after) then throw (.pathNotFound (path ++ [after]) path.length)
  let name ← takeName props
  let ms ← if after = .null then
      pure (Members.insert (.str name) Schema.stringNode (← props.toMembers))
    else
      pure (Fields.insertAfter after (.str name) Schema.stringNode (← props.members))
  let added ← doc.set path (.object ms)
  let required ← Fields.withRequired added path (.str name) true
  tell (.addedField name path)
  return ⟨some required, nodes, .str name⟩

def addChildField (path : Path) : Draft Change := do
  let _ ← doc.get path.dropLast
  let props ← if ← doc.has path then liftM (doc.get path) else pure (.object [])
  let name ← takeName props
  let ms ← props.toMembers
  let added ← doc.set path (.object (Members.insert (.str name) Schema.stringNode ms))
  let required ← Fields.withRequired added path (.str name) true
  tell (.addedChild name path)
  return ⟨some required, OpenNodes.insert path.join true nodes, .str name⟩

def toggleOpen (path : Path) (value : Value) : Draft Change := do
  let key := path.join
  let isOpen := if value = .null then !OpenNodes.isOpen key nodes else value.truthy
  return ⟨none, OpenNodes.insert key isOpen nodes, .bool isOpen⟩

end Draft

def Operation.draft (operation : Operation) (doc : Value) (nodes : OpenNodes) : Draft Change :=
  match operation with
  | .replaceDocument root => Draft.replaceDocument nodes root
  | .setValue path v => do Draft.setValue doc nodes (← path.elements) v
  | .setMock path directive => do
      Draft.setValue doc nodes ((← path.elements) ++ [.str "mock"]) (mockValue directive)
  | .setType path type => do Draft.setType doc nodes (← path.elements) type
  | .rename path old new => do Draft.rename doc nodes (← path.elements) old new
  | .toggleRequired path name required => do
      Draft.toggleRequired doc nodes (← path.elements) name required.truthy
  | .setAllRequired required => Draft.setAllRequired doc nodes required
  | .deleteField path prune => do Draft.deleteField doc nodes (← path.elements) prune.truthy
  | .addSiblingField path after => do Draft.addSiblingField doc nodes (← path.elements) after
  | .addChildField path => do Draft.addChildField doc nodes (← path.elements)
  | .toggleOpen path value => do Draft.toggleOpen nodes (← path.elements) value

def Editor.make (editor : Editor) (nextField : Nat) (change : Change) : Editor :=
  { editor with
    document := change.document.getD editor.document
    openNodes := change.openNodes
    nextField := nextField }

end SchemaForge
