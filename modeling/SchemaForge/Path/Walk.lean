import SchemaForge.Value.Shape

/-!
Addressing inside a document: looking up, replacing, writing and removing the value at a path. A key
leads from an object to the value of its member, and an index from a list to its element, a negative one
counting from the end. Each function answers with a new document and changes only the containers that
lie on the path.
-/

namespace SchemaForge

/-- The position that an index denotes in a list of `n` elements. -/
def resolveIndex (n : Nat) (i : Int) : Option Nat :=
  if 0 ≤ i then (if i < n then some i.toNat else none)
  else if -(n : Int) ≤ i then some (i + n).toNat else none

namespace Value

def child (container segment : Value) : Except Fault (Option Value) :=
  match container with
  | .object ms => do return Members.find? (← segment.key) ms
  | .array xs =>
      match segment with
      | .int i => .ok ((resolveIndex xs.length i).bind (xs[·]?))
      | _ => .ok none
  | .scalar _ => .ok none

def setChild (container segment v : Value) : Value :=
  match container, segment with
  | .object ms, .scalar k => .object (Members.insert k v ms)
  | .array xs, .int i =>
      match resolveIndex xs.length i with
      | some n => .array (xs.set n v)
      | none => .array xs
  | c, _ => c

/-- The value that a segment leads to. The segment is the one at `depth` of the path `whole`, which is
blamed if it leads nowhere. -/
def childAt (whole : Path) (depth : Nat) (container segment : Value) : Except Fault Value := do
  match ← container.child segment with
  | some v => return v
  | none => .error (.pathNotFound whole depth)

/-- The value at the end of a path, of which the first `depth` segments have been followed. -/
def getFrom (whole : Path) (depth : Nat) : Value → Path → Except Fault Value
  | doc, [] => .ok doc
  | doc, segment :: rest => do
      getFrom whole (depth + 1) (← doc.childAt whole depth segment) rest

def get (doc : Value) (path : Path) : Except Fault Value := getFrom path 0 doc path

/-- Whether a path leads to a value. A segment that cannot be a key is a fault still. -/
def has (doc : Value) (path : Path) : Except Fault Bool :=
  match doc.get path with
  | .ok _ => .ok true
  | .error (.pathNotFound _ _) => .ok false
  | .error fault => .error fault

/-- The document with `f` applied to the value at the end of a path, of which the first `depth` segments
have been followed. -/
def updateFrom (whole : Path) (f : Value → Except Fault Value) (depth : Nat) :
    Value → Path → Except Fault Value
  | doc, [] => f doc
  | doc, segment :: rest => do
      let old ← doc.childAt whole depth segment
      let new ← updateFrom whole f (depth + 1) old rest
      return doc.setChild segment new

def update (doc : Value) (path : Path) (f : Value → Except Fault Value) : Except Fault Value :=
  updateFrom path f 0 doc path

/-- Writes `v` into a container at `last`, the last segment of the path `whole`. An object takes a new
key, a list no new index. -/
def writeLast (whole : Path) (last v container : Value) : Except Fault Value :=
  match container with
  | .object ms => do return .object (Members.insert (← last.key) v ms)
  | .array xs => do
      let _ ← childAt whole (whole.length - 1) (.array xs) last
      return (Value.array xs).setChild last v
  | .scalar _ => .error (.pathNotFound whole (whole.length - 1))

/-- Removes `last`, the last segment of the path `whole`, from a container. An object that lacks the key
stays as it is. -/
def eraseLast (whole : Path) (last container : Value) : Except Fault Value :=
  match container with
  | .object ms => .ok (.object (ms.filter fun m => !(Value.scalar m.1).equals last))
  | .array xs => do
      let _ ← childAt whole (whole.length - 1) (.array xs) last
      match last with
      | .int i => return .array ((resolveIndex xs.length i).elim xs xs.eraseIdx)
      | _ => return .array xs
  | .scalar _ => .error (.pathNotFound whole (whole.length - 1))

def set (doc : Value) (path : Path) (v : Value) : Except Fault Value :=
  match path.getLast? with
  | none => .ok v
  | some last => doc.update path.dropLast (writeLast path last v)

def remove (doc : Value) (path : Path) : Except Fault Value :=
  match path.getLast? with
  | none => .error (.pathNotFound path 0)
  | some last => doc.update path.dropLast (eraseLast path last)

@[simp] theorem get_nil (doc : Value) : doc.get [] = .ok doc := rfl

@[simp] theorem update_nil (doc : Value) (f : Value → Except Fault Value) : doc.update [] f = f doc := rfl

@[simp] theorem set_nil (doc v : Value) : doc.set [] v = .ok v := rfl

@[simp] theorem remove_nil (doc : Value) : doc.remove [] = .error (.pathNotFound [] 0) := rfl

end Value

end SchemaForge
