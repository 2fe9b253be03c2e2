/-!
The six types that a schema node may declare on its own.
-/

namespace SchemaForge

inductive SchemaType where
  | string
  | number
  | integer
  | boolean
  | array
  | object
  deriving DecidableEq

namespace SchemaType

def name : SchemaType → String
  | .string => "string"
  | .number => "number"
  | .integer => "integer"
  | .boolean => "boolean"
  | .array => "array"
  | .object => "object"

def all : List SchemaType := [.string, .number, .integer, .boolean, .array, .object]

def ofName? (s : String) : Option SchemaType := all.find? (·.name = s)

@[simp] theorem ofName?_name (t : SchemaType) : ofName? t.name = some t := by cases t <;> decide

end SchemaType

end SchemaForge
