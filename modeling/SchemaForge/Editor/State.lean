import SchemaForge.Editor.OpenNodes
import SchemaForge.Json.Printer
import SchemaForge.Schema.Default
import SchemaForge.Schema.Normal

/-!
The editor: a document, the tree view on it, and those who listen for changes. Every document that is committed
is announced once to each listener.
-/

namespace SchemaForge

/-- An editor. Listeners are numbered. -/
structure Editor where
  document : Value
  openNodes : OpenNodes
  nextField : Nat
  listeners : List Nat
  deriving DecidableEq

/-- A document in the form in which an editor holds it. -/
def prepare (doc : Value) : Except Fault Value :=
  match doc with
  | .object _ => .ok (Schema.normalize doc)
  | found => .error (.documentNotObject found)

namespace Editor

def new (doc : Option Value) : Except Fault Editor := do
  return ⟨← prepare (doc.getD Schema.emptyDocument), .initial, 1, []⟩

/-- Whether a node of the tree view is open. The node is given by its joined path or by its path. -/
def isOpen (editor : Editor) (path : Value) : Except Fault Bool := do
  match path with
  | .str key => return editor.openNodes.isOpen key
  | path => return editor.openNodes.isOpen (Path.join (← path.elements))

/-! ### Listeners -/

def subscribe (editor : Editor) (listener : Nat) : Editor :=
  { editor with listeners := editor.listeners ++ [listener] }

def unsubscribe (editor : Editor) (listener : Nat) : Editor :=
  { editor with listeners := editor.listeners.erase listener }

/-- What a listener hears of documents that are announced: each one as often as the listener is called. -/
def hears (editor : Editor) (listener : Nat) (announced : List Value) : List Value :=
  announced.flatMap fun doc => List.replicate (editor.listeners.count listener) doc

/-! ### Export -/

/-- The greatest number that is a count of spaces. -/
def mostSpaces : Int := 9223372036854775807

/-- The number of spaces that no memory holds, if nothing else is said. -/
def usualMemory : Int := 68719476736

/-- The style of a text that is indented in a given way: by a number of spaces, where a negative one counts
as zero, or by a text. No memory holds a number of spaces from `memory` on. -/
def style (memory : Int) (indent : Value) : Except Fault Json.Style :=
  match indent with
  | .null => .ok .compact
  | .bool b => .ok (.indented (if b then [' '] else []))
  | .int i =>
      if i < -mostSpaces - 1 ∨ mostSpaces < i then .error .indentTooLarge
      else if memory ≤ i then .error .memoryExhausted
      else .ok (.indented (List.replicate i.toNat ' '))
  | .str s => .ok (.indented s.toList)
  | v => .error (.notIndent v)

/-- The document as text. A document that is a text needs no style. -/
def toJson (editor : Editor) (indent : Value) (memory : Int := usualMemory) : Except Fault String := do
  match editor.document with
  | .str s => return Json.compactText (.str s)
  | doc => return Json.write (← style memory indent) doc

end Editor

end SchemaForge
