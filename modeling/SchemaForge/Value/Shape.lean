import SchemaForge.Fault
import SchemaForge.Value.Equality

/-!
Using a value as a list, an object, a key or a truth value when its shape is known only as the program
runs. A text counts as the list of its characters and an object as the list of its keys; what does not
fit is a fault that names the value.
-/

namespace SchemaForge.Value

def occursWithin (part : List Char) : List Char → Bool
  | [] => part.isEmpty
  | c :: cs => part.isPrefixOf (c :: cs) || occursWithin part cs

def ofChar (c : Char) : Value := .str (String.singleton c)

def elements : Value → Except Fault (List Value)
  | .array xs => .ok xs
  | .object ms => .ok (ms.map fun m => .scalar m.1)
  | .str s => .ok (s.toList.map ofChar)
  | v => .error (.notIterable v.kindName)

/-- The members of an object. -/
def members : Value → Except Fault Members
  | .object ms => .ok ms
  | _ => .error .wrongShape

/-- The key that a value is. -/
def key : Value → Except Fault Scalar
  | .scalar s => .ok s
  | v => .error (.notKey v)

/-- Whether `needle` is a key of an object, an element of a list or a part of a text. -/
def holds (container needle : Value) : Except Fault Bool :=
  match container with
  | .object ms => do return Members.has (← needle.key) ms
  | .array xs => .ok (needle.occurs xs)
  | .str s =>
      match needle with
      | .str part => .ok (occursWithin part.toList s.toList)
      | v => .error (.notText v)
  | v => .error (.notSearchable v)

/-- The value at a fixed key of an object, if it has that key. -/
def lookup (name : String) (v : Value) : Except Fault (Option Value) := do
  return Members.find? (.str name) (← v.members)

/-- The value at a fixed key of an object, or null. -/
def getOrNull (name : String) (v : Value) : Except Fault Value := do
  return (← v.lookup name).getD .null

/-- A key with a value, written as a list of two elements. -/
def pair (index : Nat) (v : Value) : Except Fault (Scalar × Value) :=
  match v.elements with
  | .ok [k, w] => do return (← k.key, w)
  | .ok xs => .error (.pairLength index xs.length)
  | .error _ => .error (.notPair index)

/-- The members that a value stands for: its own if it is an object, and else those that its elements
write one after the other. -/
def toMembers : Value → Except Fault Members
  | .object ms => .ok ms
  | v => do
      let xs ← v.elements
      let ps ← xs.zipIdx.mapM fun (x, i) => x.pair i
      return Members.ofPairs ps

/-- Whether a value counts as true: neither null, false nor zero, nor empty. -/
def truthy : Value → Bool
  | .scalar .null => false
  | .scalar (.bool b) => b
  | .scalar (.int i) => i ≠ 0
  | .scalar (.float x) => !x.isZero
  | .scalar (.str s) => s ≠ ""
  | .array xs => !xs.isEmpty
  | .object ms => !ms.isEmpty

def isObject : Value → Bool
  | .object _ => true
  | _ => false

@[simp] theorem elements_array (xs : List Value) : (Value.array xs).elements = .ok xs := rfl

@[simp] theorem members_object (ms : Members) : (Value.object ms).members = .ok ms := rfl

@[simp] theorem key_scalar (s : Scalar) : (Value.scalar s).key = .ok s := rfl

@[simp] theorem toMembers_object (ms : Members) : (Value.object ms).toMembers = .ok ms := by
  simp [toMembers]

end SchemaForge.Value
