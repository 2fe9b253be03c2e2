import SchemaForge.Schema.Default

/-!
The normal form of a schema, in which every node says what it is: an object node has its properties and an
array node its items. A node without a type becomes an object node if it has properties, stays a set of
variants if it has a list of those, and is a text otherwise. Of the properties of a node only containers
are brought into normal form; other properties keep whatever shape they have.
-/

namespace SchemaForge.Schema

def isContainerType : Value → Bool
  | .str s => s = "object" || s = "array"
  | _ => false

/-- The type that a node declares, or the one that its properties imply. -/
def impliedType (ms : Members) : Option Value :=
  match Members.find? (.str "type") ms with
  | some t => some t
  | none =>
      match Members.find? (.str "properties") ms with
      | some (.object _) => some (.str "object")
      | _ => none

/-- Whether a value is a node that has nodes below it. -/
def isContainer : Value → Bool
  | .object ms => (impliedType ms).any isContainerType
  | _ => false

/-- A member at the end of an object, unless its key is there already. -/
def ensure (name : String) (v : Value) (ms : Members) : Members :=
  if Members.has (.str name) ms then ms else ms ++ [(.str name, v)]

mutual

/-- The normal form of a value. What is no object is no node and stays as it is. -/
def normalize : Value → Value
  | .object ms =>
      match Members.find? (.str "type") ms with
      | some (.str "object") => .object (ensure "properties" (.object []) (normalizeProperties ms))
      | some (.str "array") => .object (ensure "items" stringNode (normalizeItems ms))
      | some _ => .object ms
      | none =>
          match Members.find? (.str "properties") ms with
          | some (.object _) => .object (ensure "type" (.str "object") (normalizeProperties ms))
          | _ =>
              match Members.find? (.str "oneOf") ms with
              | some (.array _) => .object (normalizeVariants ms)
              | _ => .object (ensure "type" (.str "string") ms)
  | v => v

/-- Members with the properties among them in normal form. Properties that are no object are dropped. -/
def normalizeProperties : List (Scalar × Value) → List (Scalar × Value)
  | [] => []
  | (k, v) :: ms =>
      (if k = .str "properties" then
        match v with
        | .object ps => (k, .object (normalizeEach ps))
        | _ => (k, .object [])
      else (k, v)) :: normalizeProperties ms

def normalizeEach : List (Scalar × Value) → List (Scalar × Value)
  | [] => []
  | (k, p) :: ps => (k, if isContainer p then normalize p else p) :: normalizeEach ps

/-- Members with the items among them in normal form. Items that are no object, or an empty one, become a
text. -/
def normalizeItems : List (Scalar × Value) → List (Scalar × Value)
  | [] => []
  | (k, v) :: ms =>
      (if k = .str "items" then
        match v with
        | .object (_ :: _) => (k, normalize v)
        | _ => (k, stringNode)
      else (k, v)) :: normalizeItems ms

def normalizeVariants : List (Scalar × Value) → List (Scalar × Value)
  | [] => []
  | (k, v) :: ms =>
      (if k = .str "oneOf" then
        match v with
        | .array xs => (k, .array (normalizeAll xs))
        | _ => (k, v)
      else (k, v)) :: normalizeVariants ms

def normalizeAll : List Value → List Value
  | [] => []
  | x :: xs => normalize x :: normalizeAll xs

end

theorem normalizeAll_eq_map (xs : List Value) : normalizeAll xs = xs.map normalize := by
  induction xs with
  | nil => simp [normalizeAll]
  | cons x xs ih => simp [normalizeAll, ih]

theorem normalizeEach_eq_map (ps : Members) :
    normalizeEach ps = ps.map fun m => (m.1, if isContainer m.2 then normalize m.2 else m.2) := by
  induction ps with
  | nil => simp [normalizeEach]
  | cons m ps ih => simp [normalizeEach, ih]

end SchemaForge.Schema
