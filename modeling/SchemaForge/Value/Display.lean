import SchemaForge.Value.Basic
import SchemaForge.Numeric.Shortest
import SchemaForge.Text.Quoted

/-!
How values look in messages and in joined paths. A text on its own is shown bare and inside a list or an
object it is quoted; all else has one form. Messages also name the kind of a value.
-/

namespace SchemaForge

namespace Numeric.Binary64

/-- The text of a number in a message. -/
def display : Binary64 → List Char
  | .nan => "nan".toList
  | .infinite false => "inf".toList
  | .infinite true => "-inf".toList
  | .finite negative units _ => finiteText negative units

end Numeric.Binary64

namespace Scalar

def display : Scalar → List Char
  | .null => "None".toList
  | .bool true => "True".toList
  | .bool false => "False".toList
  | .int i => Numeric.intText i
  | .float x => x.display
  | .str s => Text.quoted s.toList

end Scalar

namespace Value

def commaSeparated : List (List Char) → List Char
  | [] => []
  | [p] => p
  | p :: ps => p ++ ", ".toList ++ commaSeparated ps

mutual

def display : Value → List Char
  | .scalar s => s.display
  | .array xs => '[' :: (commaSeparated (displayElements xs) ++ [']'])
  | .object ms => '{' :: (commaSeparated (displayMembers ms) ++ ['}'])

def displayElements : List Value → List (List Char)
  | [] => []
  | x :: xs => display x :: displayElements xs

def displayMembers : List (Scalar × Value) → List (List Char)
  | [] => []
  | (k, v) :: ms => (k.display ++ ": ".toList ++ display v) :: displayMembers ms

end

/-- The quoted form of a value, as a message shows it. A value with an integer of more than `Numeric.mostDigits`
digits has none. -/
def quotedText (v : Value) : String := String.ofList v.display

/-- The bare form of a value: a text is itself. -/
def bareText : Value → String
  | .str s => s
  | v => v.quotedText

def kindName : Value → String
  | .scalar .null => "NoneType"
  | .scalar (.bool _) => "bool"
  | .scalar (.int _) => "int"
  | .scalar (.float _) => "float"
  | .scalar (.str _) => "str"
  | .array _ => "list"
  | .object _ => "dict"

@[simp] theorem bareText_str (s : String) : (Value.str s).bareText = s := rfl

end Value

end SchemaForge
