import SchemaForge.Inference.Sample
import SchemaForge.Inference.Types
import SchemaForge.Inference.Variants

/-!
Inference proper: a schema is widened until it also describes a further sample. An object adds its keys to
the properties, and a property that is met as several kinds gets the list of their types. The elements of
an array share one schema as long as they are of one kind, objects keeping as required what all of them
carry; elements of several kinds become a set of variants.

The schema that is widened is any value, because it may come from elsewhere. What is no schema is a fault
at the point where its shape matters.
-/

namespace SchemaForge.Inference

def scalarNode (kind : Kind) (format : Option String) : Value :=
  .object ((.str "type", .str kind.recorded.name) ::
    match format with
    | none => []
    | some f => [(.str "format", .str f)])

/-- The members of the schema to widen, of which the type now includes `kind`. -/
def opened (kind : Kind) (schema : Option Value) : Except Fault Members := do
  let ms ← (schema.getD (.object [])).members
  let type ← mergeTypes ((Members.find? (.str "type") ms).getD .null) (.str kind.name)
  return Members.insert (.str "type") type ms

/-- The schema at a key, if there is one; null is none. -/
def existing (k : Scalar) (props : Members) : Option Value :=
  match Members.find? k props with
  | some .null => none
  | found => found

/-- Properties that also allow a scalar at a key. -/
def widenScalar (k : Scalar) (kind : Kind) (format : Option String) (props : Members) :
    Except Fault Members := do
  match Members.find? k props with
  | none => return Members.insert k (scalarNode kind format) props
  | some node =>
      let ms ← node.members
      let type ← mergeTypes ((Members.find? (.str "type") ms).getD .null) (.str kind.recorded.name)
      return Members.insert k (.object (Members.insert (.str "type") type ms)) props

/-- The fault of recording a property where the properties are no object. -/
def strayProperty : List (Scalar × Sample) → Except Fault Unit
  | [] => .ok ()
  | (_, .array _) :: _ => .error .wrongShape
  | (_, .object _) :: _ => .error .wrongShape
  | _ :: _ => .error .noMembers

/-- The kinds of elements that are recorded so far, each once, by name. -/
def elementKinds (known : List String) : List Kind → List String
  | [] => known
  | k :: ks => elementKinds (if known.contains k.recorded.name then known else known ++ [k.recorded.name]) ks

/-- The properties to widen. If what is there is no object there are none, and nothing may be recorded. -/
def openProperties (ms : Members) (members : List (Scalar × Sample)) : Except Fault (Option Members) := do
  match Members.find? (.str "properties") ms with
  | none => return some []
  | some (.object props) => return some props
  | some _ => do
      strayProperty members
      return none

/-! ### Elements -/

/-- How the schema of some elements is to be widened by further ones. -/
inductive Plan where
  /-- It is the set of variants at `oneOf` in a node, and grows. -/
  | grow (node : Members) (set : Value)
  /-- There are several kinds: a set of variants is begun with what was there. -/
  | mix (first : List Value)
  /-- It is one schema of objects, with the names that all of them carry so far. -/
  | objects (required : Option (List Value)) (node : Members)
  /-- It is one schema of arrays. -/
  | arrays (node : Members)
  /-- It is the schema of scalars of one kind. -/
  | scalars (kind : String) (node : Members)
  /-- There is nothing to record. -/
  | keep

/-- The names that a schema of objects requires so far, if it is one; without any mention, none. -/
def requiredSoFar (items : Members) : Except Fault (Option (List Value)) := do
  match Members.find? (.str "type") items with
  | some (.str "object") =>
      return some (← ((Members.find? (.str "required") items).getD (.array [])).elements)
  | _ => return none

/-- How the schema of elements is widened by elements of the given kinds. -/
def plan (items : Value) (kinds : List Kind) : Except Fault Plan := do
  if ← items.holds (.str "oneOf") then
    match items with
    | .object ms => return .grow ms ((Members.find? (.str "oneOf") ms).getD .null)
    | _ => .error .noMembers
  else
    let ms ← items.members
    let type := (Members.find? (.str "type") ms).getD .null
    let known := match type with
      | .str s => [s]
      | _ => []
    match elementKinds known kinds with
    | [] => return .keep
    | ["object"] => return .objects (← requiredSoFar ms) ms
    | ["array"] => return .arrays ms
    | [kind] => return .scalars kind ms
    | _ => return .mix (if type.truthy then [items] else [])

/-- The schema of elements in the schema of an array; missing, it is empty. -/
def openItems (ms : Members) : Value :=
  let items := (Members.find? (.str "items") ms).getD .null
  if items.truthy then items else .object []

/-- A node whose set of variants has the candidates added to it. Only a list can grow. -/
def grown (node : Members) (set : Value) (candidates : List Value) : Except Fault Value := do
  match set with
  | .array xs => return .object (Members.insert (.str "oneOf") (.array (addVariants xs candidates)) node)
  | v =>
      let _ ← v.elements
      if candidates.isEmpty then return .object node else .error .wrongShape

/-- A set of variants that begins with some. -/
def mixed (first candidates : List Value) : Value :=
  .object [(.str "oneOf", .array (addVariants first candidates))]

/-- A schema of objects with the names that all of them carry; without such names there is no list. -/
def withRequired (required : Option (List Value)) (schema : Value) : Except Fault Value := do
  let ms ← schema.members
  match required with
  | some (n :: ns) => return .object (Members.insert (.str "required") (.array (n :: ns)) ms)
  | _ => return .object (Members.erase (.str "required") ms)

def typed (kind : String) (formats : List String) (node : Members) : Value :=
  .object (formats.foldl (fun ms f => Members.insert (.str "format") (.str f) ms)
    (Members.insert (.str "type") (.str kind) node))

/-! ### Samples -/

mutual

/-- A schema widened by a sample. A scalar has a schema of its own whatever was there before. -/
def widen (schema : Option Value) : Sample → Except Fault Value
  | .object ms => do
      let out ← opened .object schema
      match ← openProperties out ms with
      | none => return .object out
      | some props =>
          let widened ← widenProperties ms props
          return .object (Members.insert (.str "properties") (.object widened) out)
  | .array xs => do
      let out ← opened .array schema
      let items := openItems out
      let widened ← match ← plan items (xs.map Sample.kind) with
        | .grow node set => do grown node set (← variants xs)
        | .mix first => do pure (mixed first (← variants xs))
        | .objects required node => do
            let (required, schema) ← widenObjects xs required (.object node)
            withRequired required schema
        | .arrays node => widenArrays xs (.object node)
        | .scalars kind node => pure (typed kind (xs.filterMap Sample.format) node)
        | .keep => pure items
      return .object (Members.insert (.str "items") widened out)
  | .scalar s => .ok (scalarNode (Sample.scalar s).kind (Sample.scalar s).format)
  | .foreign f => .ok (scalarNode (Sample.foreign f).kind (Sample.foreign f).format)

/-- Properties widened by the members of an object. -/
def widenProperties : List (Scalar × Sample) → Members → Except Fault Members
  | [], props => .ok props
  | (k, v) :: rest, props => do
      if v.isContainer then
        widenProperties rest (Members.insert k (← widen (existing k props) v) props)
      else
        widenProperties rest (← widenScalar k v.kind v.format props)

def variants : List Sample → Except Fault (List Value)
  | [] => .ok []
  | x :: xs => do
      let node ← widen none x
      return node :: (← variants xs)

/-- A schema widened by objects in turn, with the names that all of them carry. -/
def widenObjects : List Sample → Option (List Value) → Value →
    Except Fault (Option (List Value) × Value)
  | [], required, schema => .ok (required, schema)
  | x :: xs, required, schema => do
      let narrowed ← narrowRequired required x.keys
      widenObjects xs (some narrowed) (← widen (some schema) x)

/-- A schema widened by arrays in turn; one that is not yet the schema of an array is begun anew. -/
def widenArrays : List Sample → Value → Except Fault Value
  | [], schema => .ok schema
  | x :: xs, schema => do
      let type ← schema.getOrNull "type"
      widenArrays xs (← widen (if type = .str "array" then some schema else none) x)

end

/-- The schema of an object, widened by a sample, which has to be one. -/
def inferObject (schema : Option Value) : Sample → Except Fault Value
  | .object ms => widen schema (.object ms)
  | _ => do
      let _ ← opened .object schema
      .error .wrongShape

/-- The schema of an array, widened by a sample. A text is an array of its characters, and an object one
of its keys. -/
def inferArray (schema : Option Value) : Sample → Except Fault Value
  | .array xs => widen schema (.array xs)
  | .object ms => widen schema (.array (ms.map fun m => .scalar m.1))
  | .scalar (.str s) =>
      widen schema (.array (s.toList.map fun c => .scalar (.str (String.singleton c))))
  | .scalar s => do
      let _ ← plan (openItems (← opened .array schema)) []
      .error (.notIterable (Value.scalar s).kindName)
  | .foreign _ => do
      let _ ← plan (openItems (← opened .array schema)) []
      .error (.notIterable "object")

end SchemaForge.Inference
