import SchemaForge.Text.Printable

/-!
Quoted text, as messages show it. The text stands between single quotes, or between double quotes if it
holds a single quote and no double one. The chosen quote and the backslash are escaped; a character that
cannot be shown is written by its scalar value in two, four or eight hexadecimal digits.
-/

namespace SchemaForge.Text

/-- The hexadecimal digits of a number, in lower case and at least `width` of them. -/
def hex (width n : Nat) : List Char :=
  let ds := Nat.toDigits 16 n
  List.replicate (width - ds.length) '0' ++ ds

/-- The quote that surrounds a text. -/
def quoteFor (cs : List Char) : Char :=
  if cs.contains '\'' && !cs.contains '"' then '"' else '\''

def quotedChar (quote c : Char) : List Char :=
  if c = quote ∨ c = '\\' then ['\\', c]
  else if c = '\n' then ['\\', 'n']
  else if c = '\r' then ['\\', 'r']
  else if c = '\t' then ['\\', 't']
  else if isPrintable c then [c]
  else if c.toNat < 0x100 then '\\' :: 'x' :: hex 2 c.toNat
  else if c.toNat < 0x10000 then '\\' :: 'u' :: hex 4 c.toNat
  else '\\' :: 'U' :: hex 8 c.toNat

def quoted (cs : List Char) : List Char :=
  let quote := quoteFor cs
  quote :: (cs.flatMap (quotedChar quote) ++ [quote])

def quote (s : String) : String := String.ofList (quoted s.toList)

example : quoted "it's".toList = "\"it's\"".toList := by decide
example : quoted "a\tb".toList = "'a\\tb'".toList := by decide

end SchemaForge.Text
