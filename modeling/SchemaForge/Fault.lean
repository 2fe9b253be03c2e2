import SchemaForge.Schema.Type
import SchemaForge.Value.Display

/-!
What can go wrong when a document is addressed, edited or described. A fault is a cause; the sentence
that reports it is `Fault.message`. Most causes are values of the wrong shape at a place where a list, an
object, a text or a key is needed.
-/

namespace SchemaForge

/-- A sequence of keys and indices. A segment is any value: one that cannot be a key fails when it meets
an object. -/
abbrev Path := List Value

namespace Path

/-- The segments of a path with a full stop between them, if none of them is or holds an integer of more than
`Numeric.mostDigits` digits; a path with such an integer has no text. -/
def join (path : Path) : String := ".".intercalate (path.map Value.bareText)

end Path

inductive Fault where
  /-- The segment at `depth` of the path leads nowhere. Of a path that has no text this is not reported: naming
  it fails first, for the length of the integer. -/
  | pathNotFound (path : Path) (depth : Nat)
  /-- A written path has a bracket that is not closed. -/
  | unclosedIndex (text : String)
  /-- A written path has something else than digits between brackets. -/
  | nonIntegerIndex (piece : String)
  /-- A written path has an empty key. -/
  | emptyKey (text : String)
  /-- An index has a digit that is not decimal. -/
  | invalidNumeral (digits : String)
  /-- An integer is written with more digits than are read. -/
  | numeralTooLong (count : Nat)
  /-- There is no schema type of this name. -/
  | unsupportedType (type : Value)
  /-- A document has to be an object. -/
  | documentNotObject (found : Value)
  /-- An operation has none of the known names. -/
  | unknownOperation (name : Value) (known : List String)
  /-- An operation is given an argument that it sets itself. -/
  | reservedArgument (operation argument : String)
  /-- An operation is given an argument that it does not have. -/
  | unexpectedArgument (operation argument : String)
  /-- An operation lacks arguments. -/
  | missingArguments (operation : String) (arguments : List String)
  /-- A value has no elements to go through. -/
  | notIterable (kind : String)
  /-- A value cannot be a key. -/
  | notKey (found : Value)
  /-- A value cannot be searched for another one. -/
  | notSearchable (found : Value)
  /-- A text can only be searched for a text. -/
  | notText (found : Value)
  /-- A list or a text has positions and no members. -/
  | noMembers
  /-- A value has no positions. -/
  | noPositions (found : Value)
  /-- An object has no positions. -/
  | objectWithoutPositions
  /-- The element at `index` is no key with a value. -/
  | notPair (index : Nat)
  /-- The element at `index` has not the two parts of a key with a value. -/
  | pairLength (index length : Nat)
  /-- A value is neither a count of spaces nor a text to indent with. -/
  | notIndent (found : Value)
  /-- A count of spaces to indent with is too large to be a count. -/
  | indentTooLarge
  /-- A text would be longer than any memory can hold. -/
  | memoryExhausted
  /-- A value is used as an object, a list or a text that it is not. -/
  | wrongShape
  deriving DecidableEq

namespace Fault

def listed (names : List String) : String :=
  let quotedNames := names.map Text.quote
  match quotedNames with
  | [] => ""
  | [a] => a
  | [a, b] => a ++ " and " ++ b
  | many => ", ".intercalate many.dropLast ++ ", and " ++ many.getLastD ""

def message : Fault → String
  | .pathNotFound path depth =>
      Text.quote s!"path not found: {Text.quote path.join} (failed at segment {depth})"
  | .unclosedIndex text => s!"Unclosed index in path: {Text.quote text}"
  | .nonIntegerIndex piece => s!"Non-integer index in path: {Text.quote piece}"
  | .emptyKey text => s!"Empty key in path: {Text.quote text}"
  | .invalidNumeral ds =>
      "invalid literal for int() with base 10: " ++
        String.ofList ((Text.quoted ds.toList).take 200)
  | .numeralTooLong count => Numeric.tooLongMessage count
  | .unsupportedType type =>
      s!"unsupported schema type {type.quotedText} (expected one of: " ++
        ", ".intercalate (SchemaType.all.map SchemaType.name) ++ ")"
  | .documentNotObject found => s!"schema document must be a JSON object, got {found.kindName}"
  | .unknownOperation name known =>
      s!"unknown operation {name.quotedText} (expected one of: " ++
        ", ".intercalate known ++ ")"
  | .reservedArgument operation argument =>
      s!"SchemaEditor.{operation}() got multiple values for argument {Text.quote argument}"
  | .unexpectedArgument operation argument =>
      s!"SchemaEditor.{operation}() got an unexpected keyword argument '{argument}'"
  | .missingArguments operation arguments =>
      let plural := if arguments.length = 1 then "" else "s"
      s!"SchemaEditor.{operation}() missing {arguments.length} required positional " ++
        s!"argument{plural}: {listed arguments}"
  | .notIterable kind => s!"'{kind}' object is not iterable"
  | .notKey found => s!"unhashable type: '{found.kindName}'"
  | .notSearchable found => s!"argument of type '{found.kindName}' is not iterable"
  | .notText found => s!"'in <string>' requires string as left operand, not {found.kindName}"
  | .noMembers => "list indices must be integers or slices, not str"
  | .noPositions found => s!"'{found.kindName}' object is not subscriptable"
  | .objectWithoutPositions => "0"
  | .notPair index =>
      s!"cannot convert dictionary update sequence element #{index} to a sequence"
  | .pairLength index length =>
      s!"dictionary update sequence element #{index} has length {length}; 2 is required"
  | .notIndent found => s!"can't multiply sequence by non-int of type '{found.kindName}'"
  | .indentTooLarge => "cannot fit 'int' into an index-sized integer"
  | .memoryExhausted => ""
  | .wrongShape => "a value of this shape cannot be used here"

end Fault

end SchemaForge
