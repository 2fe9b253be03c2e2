import SchemaForge.Inference.Node
import SchemaForge.Inference.Widen

/-!
The schema of a sample. Objects and arrays are gone through, and any other sample gets its type alone. A
title goes to the root; an array passes it on to its items and is itself called a set of them.
-/

namespace SchemaForge.Inference

/-- The members at the beginning of a schema: the type and, unless it is empty, the title. -/
def heading (kind : Kind) (title : Option String) : Members :=
  (.str "type", .str kind.rootKind.name) ::
    match title with
    | none => []
    | some t => if t = "" then [] else [(.str "title", .str t)]

/-- Items that bear a title, under an array that is called a set of them. -/
def entitle (title : Option String) (items : Members) (ms : Members) : Members :=
  match title with
  | none => ms ++ [(.str "items", .object items)]
  | some t =>
      if t = "" then ms ++ [(.str "items", .object items)]
      else
        Members.insert (.str "title") (.str (t ++ " Set"))
          (ms ++ [(.str "items", .object (Members.insert (.str "title") (.str t) items))])

def inferSchema (sample : Sample) (title : Option String) : Except Fault Value := do
  let head := heading sample.kind title
  match sample with
  | .object ms =>
      let node ← nodeForm (← inferObject none (.object ms))
      let properties ← node.getOrNull "properties"
      return .object (head ++ [(.str "properties", properties)])
  | .array xs =>
      let node ← nodeForm (← inferArray none (.array xs))
      let items ← node.getOrNull "items"
      return .object (entitle title (← items.members) head)
  | _ => return .object head

end SchemaForge.Inference
