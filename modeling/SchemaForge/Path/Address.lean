import SchemaForge.Path.Walk

/-!
Paths that are given as plain values. Usually such a value is a list of segments; a text stands for the
list of its characters and, where the segments are only gone through, an object for the list of its keys.
Where a path is taken apart by position an object is a fault, and where something is written or removed a
path that counts as false is the empty one.
-/

namespace SchemaForge.Address

/-- The segments of a path that is taken apart by position. -/
def segments : Value → Except Fault Path
  | .array xs => .ok xs
  | .str s => .ok (s.toList.map Value.ofChar)
  | v => .error (.noPositions v)

def parent (path : Value) : Except Fault Path := do return (← segments path).dropLast

def join (path : Value) : Except Fault String := do return Path.join (← path.elements)

def get (doc path : Value) : Except Fault Value := do doc.get (← path.elements)

def has (doc path : Value) : Except Fault Bool := do doc.has (← path.elements)

def update (doc path : Value) (f : Value → Except Fault Value) : Except Fault Value :=
  match path with
  | .object [] => f doc
  | .object _ => .error .objectWithoutPositions
  | _ => do doc.update (← segments path) f

def set (doc path v : Value) : Except Fault Value :=
  if !path.truthy then .ok v
  else do doc.set (← segments path) v

def remove (doc path : Value) : Except Fault Value :=
  if !path.truthy then do .error (.pathNotFound (← path.elements) 0)
  else do doc.remove (← segments path)

/-- A path that is a list is the path of its elements. -/
theorem on_array (doc : Value) (p : Path) :
    get doc (.array p) = doc.get p ∧ has doc (.array p) = doc.has p ∧
      (∀ f, update doc (.array p) f = doc.update p f) ∧
      (∀ v, set doc (.array p) v = doc.set p v) ∧ remove doc (.array p) = doc.remove p := by
  refine ⟨rfl, rfl, fun _ => rfl, fun v => ?_, ?_⟩
  · cases p <;> rfl
  · cases p <;> rfl

end SchemaForge.Address
