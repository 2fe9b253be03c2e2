import SchemaForge.Value.Shape

/-!
The shapes that nodes have when nothing else is known of them: one for each type, and the document that an
editor begins with.
-/

namespace SchemaForge

/-- The node that a type has before anything is added to it. -/
def SchemaType.shape : SchemaType → Value
  | .array => .object [(.str "type", .str "array"), (.str "items", .object [(.str "type", .str "string")])]
  | .object => .object [(.str "type", .str "object"), (.str "properties", .object [])]
  | t => .object [(.str "type", .str t.name)]

namespace Schema

def ofType (type : Value) : Except Fault Value := do
  match ← type.key with
  | .str s =>
      match SchemaType.ofName? s with
      | some t => return t.shape
      | none => .error (.unsupportedType type)
  | _ => .error (.unsupportedType type)

/-- The node of a text, which also stands for missing items. -/
def stringNode : Value := SchemaType.string.shape

/-- The document that an editor begins with. -/
def emptyDocument : Value :=
  .object [(.str "type", .str "object"), (.str "title", .str "title"), (.str "properties", .object [])]

@[simp] theorem ofType_name (t : SchemaType) : ofType (.str t.name) = .ok t.shape := by
  unfold ofType
  change (match SchemaType.ofName? t.name with
    | some t => Except.ok t.shape
    | none => Except.error (Fault.unsupportedType (.str t.name))) = .ok t.shape
  rw [SchemaType.ofName?_name]

end Schema

end SchemaForge
