import SchemaForge.Value.Basic

/-!
Samples, from which schemas are inferred. A sample is a value, or holds values of a host program for which
JSON has no form: points in time, patterns, procedures and anything else.
-/

namespace SchemaForge

/-- A kind of value without a form in JSON. -/
inductive Foreign where
  | date
  | pattern
  | procedure
  | other
  deriving DecidableEq

inductive Sample where
  | scalar (s : Scalar)
  | foreign (f : Foreign)
  | array (elements : List Sample)
  | object (members : List (Scalar × Sample))

inductive Kind where
  | null
  | boolean
  | number
  | string
  | array
  | object
  | date
  | regexp
  | function
  | unknown
  deriving DecidableEq

namespace Kind

def name : Kind → String
  | .null => "null"
  | .boolean => "boolean"
  | .number => "number"
  | .string => "string"
  | .array => "array"
  | .object => "object"
  | .date => "date"
  | .regexp => "regexp"
  | .function => "function"
  | .unknown => "unknown"

/-- The kind under which a property is recorded. What JSON cannot hold is recorded as a text. -/
def recorded : Kind → Kind
  | .date => .string
  | .regexp => .string
  | .function => .string
  | .unknown => .string
  | k => k

/-- The kind that the root of a schema declares: null, and what is unknown, count as objects. -/
def rootKind : Kind → Kind
  | .null => .object
  | .unknown => .object
  | k => k.recorded

end Kind

namespace Sample

instance : Inhabited Sample := ⟨.scalar .null⟩

def kind : Sample → Kind
  | .scalar .null => .null
  | .scalar (.bool _) => .boolean
  | .scalar (.int _) => .number
  | .scalar (.float _) => .number
  | .scalar (.str _) => .string
  | .foreign .date => .date
  | .foreign .pattern => .regexp
  | .foreign .procedure => .function
  | .foreign .other => .unknown
  | .array _ => .array
  | .object _ => .object

def format (v : Sample) : Option String :=
  if v.kind = .date then some "date-time" else none

def isContainer : Sample → Bool
  | .array _ => true
  | .object _ => true
  | _ => false

def keys : Sample → List Scalar
  | .object ms => ms.map (·.1)
  | _ => []

mutual

/-- The sample that a value is. -/
def ofValue : Value → Sample
  | .scalar s => .scalar s
  | .array xs => .array (ofElements xs)
  | .object ms => .object (ofMembers ms)

def ofElements : List Value → List Sample
  | [] => []
  | x :: xs => ofValue x :: ofElements xs

def ofMembers : List (Scalar × Value) → List (Scalar × Sample)
  | [] => []
  | (k, v) :: ms => (k, ofValue v) :: ofMembers ms

end

@[simp] theorem ofElements_eq_map (xs : List Value) : ofElements xs = xs.map ofValue := by
  induction xs with
  | nil => simp [ofElements]
  | cons x xs ih => simp [ofElements, ih]

@[simp] theorem ofMembers_eq_map (ms : Members) : ofMembers ms = ms.map fun m => (m.1, ofValue m.2) := by
  induction ms with
  | nil => simp [ofMembers]
  | cons m ms ih => simp [ofMembers, ih]

end Sample

end SchemaForge
