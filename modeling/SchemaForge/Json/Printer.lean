import SchemaForge.Numeric.Shortest
import SchemaForge.Text.Quoted
import SchemaForge.Value.Basic

/-!
Writing JSON text. A style says what stands between the parts; the texts of scalars are the same in every
style. Only the quote, the backslash and the control characters are escaped. A key that is no text is
written as its own text between quotes, so that an object may show a key twice. An integer is written only if
it has no more than `Numeric.mostDigits` digits. A value with a longer one, which no text denotes, has no text,
and what is given here for it is not meant.
-/

namespace SchemaForge.Json

def escapeChar (c : Char) : List Char :=
  if c = '"' then ['\\', '"']
  else if c = '\\' then ['\\', '\\']
  else if c = '\n' then ['\\', 'n']
  else if c = '\r' then ['\\', 'r']
  else if c = '\t' then ['\\', 't']
  else if c = '\x08' then ['\\', 'b']
  else if c = '\x0c' then ['\\', 'f']
  else if c.toNat < 0x20 then '\\' :: 'u' :: Text.hex 4 c.toNat
  else [c]

def writeText (cs : List Char) : List Char := '"' :: (cs.flatMap escapeChar ++ ['"'])

def writeFloat : Numeric.Binary64 → List Char
  | .nan => "NaN".toList
  | .infinite false => "Infinity".toList
  | .infinite true => "-Infinity".toList
  | .finite negative units _ => Numeric.finiteText negative units

def writeBare : Scalar → List Char
  | .null => "null".toList
  | .bool true => "true".toList
  | .bool false => "false".toList
  | .int i => Numeric.intText i
  | .float x => writeFloat x
  | .str s => s.toList

def writeScalar : Scalar → List Char
  | .str s => writeText s.toList
  | s => writeBare s

def writeKey (k : Scalar) : List Char := writeText (writeBare k)

/-- What stands between the parts of a text: after each item but the last, after each key, and, if every
item has a line of its own, what indents a line by one level. -/
structure Style where
  itemSeparator : List Char
  keySeparator : List Char
  indent : Option (List Char)

namespace Style

def compact : Style := ⟨", ".toList, ": ".toList, none⟩

def minified : Style := ⟨",".toList, ":".toList, none⟩

def indented (unit : List Char) : Style := ⟨",".toList, ": ".toList, some unit⟩

/-- The beginning of a line at a level. -/
def lineBreak (style : Style) (level : Nat) : List Char :=
  match style.indent with
  | none => []
  | some unit => '\n' :: (List.replicate level unit).flatten

end Style

def enclose (style : Style) (level : Nat) (opening closing : Char) : List (List Char) → List Char
  | [] => [opening, closing]
  | items =>
      opening :: (style.lineBreak (level + 1) ++
        (items.intersperse (style.itemSeparator ++ style.lineBreak (level + 1))).flatten ++
        style.lineBreak level ++ [closing])

mutual

def writeValue (style : Style) (level : Nat) : Value → List Char
  | .scalar s => writeScalar s
  | .array xs => enclose style level '[' ']' (writeElements style (level + 1) xs)
  | .object ms => enclose style level '\x7b' '\x7d' (writeMembers style (level + 1) ms)

def writeElements (style : Style) (level : Nat) : List Value → List (List Char)
  | [] => []
  | x :: xs => writeValue style level x :: writeElements style level xs

def writeMembers (style : Style) (level : Nat) : List (Scalar × Value) → List (List Char)
  | [] => []
  | (k, v) :: ms =>
      (writeKey k ++ style.keySeparator ++ writeValue style level v) :: writeMembers style level ms

end

/-- The text of a value, if its integers are short enough to have one. -/
def write (style : Style) (v : Value) : String := String.ofList (writeValue style 0 v)

def compactText (v : Value) : String := write .compact v

end SchemaForge.Json
