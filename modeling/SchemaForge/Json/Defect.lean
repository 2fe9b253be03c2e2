import SchemaForge.Numeric.Numeral

/-!
What can be wrong with a JSON text, where it is wrong, and how that is told.
-/

namespace SchemaForge.Json

inductive Defect where
  | expectingValue
  | expectingName
  | expectingColon
  | expectingComma
  | extraData
  | unterminatedText
  | controlCharacter
  | invalidEscape
  | invalidUnicodeEscape
  | byteOrderMark
  deriving DecidableEq

def Defect.words : Defect → String
  | .expectingValue => "Expecting value"
  | .expectingName => "Expecting property name enclosed in double quotes"
  | .expectingColon => "Expecting ':' delimiter"
  | .expectingComma => "Expecting ',' delimiter"
  | .extraData => "Extra data"
  | .unterminatedText => "Unterminated string starting at"
  | .controlCharacter => "Invalid control character at"
  | .invalidEscape => "Invalid \\escape"
  | .invalidUnicodeEscape => "Invalid \\uXXXX escape"
  | .byteOrderMark => "Unexpected UTF-8 BOM (decode using utf-8-sig)"

/-- A place in a text: the number of characters before it, its line, and its column in that line. Lines
and columns count from one, and only a line feed ends a line. -/
structure Place where
  offset : Nat
  line : Nat
  column : Nat
  deriving DecidableEq

/-- The place after the characters `before`. -/
def Place.after (before : List Char) : Place where
  offset := before.length
  line := before.count '\n' + 1
  column := (before.reverse.takeWhile (· ≠ '\n')).length + 1

/-- Why a text was not read. An integer of too many digits is refused although the text is well formed. -/
inductive ReadError where
  | malformed (defect : Defect) (place : Place)
  | numeralTooLong (count : Nat)
  deriving DecidableEq

def ReadError.message : ReadError → String
  | .malformed defect place =>
      s!"{defect.words}: line {place.line} column {place.column} (char {place.offset})"
  | .numeralTooLong count => Numeric.tooLongMessage count

def Defect.located (defect : Defect) (place : Place) : String :=
  s!"{defect.words} (line {place.line}, column {place.column})"

end SchemaForge.Json
