import SchemaForge.Json.Defect
import SchemaForge.Value.Members

/-!
Reading JSON text. Beside the standard grammar the words `NaN`, `Infinity` and `-Infinity` are numbers. A
number with a fraction or an exponent is rounded to the binary format, and any other one is an integer of
whatever size. If an object repeats a key, the last value counts and the first place stays. A text is a row of characters:
half of a pair that is escaped alone is no character and does not get into one, so what follows about reading and
writing is meant of texts that pair their halves.

The functions below work on the characters that are left, and so does what they report: a defect is
pinned to the rest of the text that begins at it, from which `read` computes the place.
-/

namespace SchemaForge.Json

/-- Why reading stopped: at the beginning of `rest`, or because of a long integer. -/
inductive Stop where
  | malformed (defect : Defect) (rest : List Char)
  | numeralTooLong (count : Nat)

abbrev Step := Except Stop

/-- White space between the parts of a text. -/
def isSpace (c : Char) : Bool := c = ' ' || c = '\t' || c = '\n' || c = '\r'

def skipSpace (cs : List Char) : List Char := cs.dropWhile isSpace

/-! ### Texts -/

def hexValue? (c : Char) : Option Nat :=
  if '0' ≤ c ∧ c ≤ '9' then some (c.toNat - '0'.toNat)
  else if 'a' ≤ c ∧ c ≤ 'f' then some (c.toNat - 'a'.toNat + 10)
  else if 'A' ≤ c ∧ c ≤ 'F' then some (c.toNat - 'A'.toNat + 10)
  else none

def codeUnit? (a b c d : Char) : Option Nat := do
  return ((← hexValue? a) * 16 + (← hexValue? b)) * 256 + ((← hexValue? c) * 16 + (← hexValue? d))

def isHighHalf (n : Nat) : Bool := 0xd800 ≤ n && n ≤ 0xdbff

def isLowHalf (n : Nat) : Bool := 0xdc00 ≤ n && n ≤ 0xdfff

/-- The character that a code unit stands for on its own. Half a pair without the other half stands for none. It is
replaced by `U+FFFD`, so texts that differ in such halves alone are read as one, and what is read can always be
written. -/
def unitChar (n : Nat) : Char :=
  if isHighHalf n || isLowHalf n then '\ufffd' else Char.ofNat n

def pairChar (high low : Nat) : Char :=
  Char.ofNat (0x10000 + (high - 0xd800) * 0x400 + (low - 0xdc00))

/-- The character that an escape of one letter stands for. -/
def escapedChar? : Char → Option Char
  | '"' => some '"'
  | '\\' => some '\\'
  | '/' => some '/'
  | 'b' => some '\x08'
  | 'f' => some '\x0c'
  | 'n' => some '\n'
  | 'r' => some '\r'
  | 't' => some '\t'
  | _ => none

/-- The character that an escape of digits stands for, read from the digits on; `letter` is the escape
from its letter on. The four digits must have a character after them. Two escapes that are halves of one
character are read together. -/
def readDigits (letter : List Char) : List Char → Step (Char × List Char)
  | a :: b :: c :: d :: x :: rest =>
      match codeUnit? a b c d with
      | none => .error (.malformed .invalidUnicodeEscape letter)
      | some high =>
          if isHighHalf high then
            match x :: rest with
            | '\\' :: 'u' :: a' :: b' :: c' :: d' :: y :: tail =>
                match codeUnit? a' b' c' d' with
                | none =>
                    .error (.malformed .invalidUnicodeEscape ('u' :: a' :: b' :: c' :: d' :: y :: tail))
                | some low =>
                    if isLowHalf low then .ok (pairChar high low, y :: tail)
                    else .ok (unitChar high, x :: rest)
            | _ => .ok (unitChar high, x :: rest)
          else .ok (unitChar high, x :: rest)
  | _ => .error (.malformed .invalidUnicodeEscape letter)

/-- The character that an escape stands for, read from its letter on. The escape begins at `escape`, and
the text at `whole`. -/
def readEscape (whole escape : List Char) : List Char → Step (Char × List Char)
  | [] => .error (.malformed .unterminatedText whole)
  | 'u' :: rest => readDigits ('u' :: rest) rest
  | c :: rest =>
      match escapedChar? c with
      | none => .error (.malformed .invalidEscape escape)
      | some d => .ok (d, rest)

/-- What is left of the text whose opening quote is the first character of `whole`, at most `fuel`
characters of it. -/
def readText (whole : List Char) : (fuel : Nat) → List Char → Step (List Char × List Char)
  | 0, _ => .error (.malformed .unterminatedText whole)
  | _, [] => .error (.malformed .unterminatedText whole)
  | fuel + 1, c :: cs =>
      if c = '"' then .ok ([], cs)
      else if c.toNat < 0x20 then .error (.malformed .controlCharacter (c :: cs))
      else do
        let (d, rest) ← if c = '\\' then readEscape whole (c :: cs) cs else .ok (c, cs)
        let (text, rest) ← readText whole fuel rest
        return (d :: text, rest)

/-! ### Numbers -/

/-- The decimal digits at the beginning, and what follows them. -/
def spanDigits (cs : List Char) : List Char × List Char :=
  (cs.takeWhile Char.isDigit, cs.dropWhile Char.isDigit)

def readFraction : List Char → Option (List Char × List Char)
  | '.' :: cs =>
      match spanDigits cs with
      | ([], _) => none
      | read => some read
  | _ => none

/-- The power of ten after its letter, if the letter with a digit follows. -/
def readExponent : List Char → Option (Int × List Char)
  | c :: cs =>
      if c = 'e' ∨ c = 'E' then
        let (negative, cs) := match cs with
          | '+' :: r => (false, r)
          | '-' :: r => (true, r)
          | r => (false, r)
        match spanDigits cs with
        | ([], _) => none
        | (ds, rest) =>
            let n : Int := Nat.ofDigitChars 10 ds 0
            some (if negative then -n else n, rest)
      else none
  | [] => none

/-- The digits before a point: a lone zero, or a row of digits that does not begin with one. -/
def readWhole : List Char → Option (List Char × List Char)
  | '0' :: cs => some (['0'], cs)
  | cs =>
      match spanDigits cs with
      | ([], _) => none
      | read => some read

def readMagnitude (start : List Char) (negative : Bool) (cs : List Char) : Step (Value × List Char) :=
  match readWhole cs with
  | none => .error (.malformed .expectingValue start)
  | some (whole, rest) =>
      match readFraction rest, readExponent rest with
      | none, none =>
          if Numeric.mostDigits < whole.length then .error (.numeralTooLong whole.length)
          else
            let n : Int := Nat.ofDigitChars 10 whole 0
            .ok (.int (if negative then -n else n), rest)
      | none, some (power, rest) =>
          .ok (.float (.ofDecimal negative ⟨Nat.ofDigitChars 10 whole 0, power⟩), rest)
      | some (fraction, rest), _ =>
          let (power, rest) := (readExponent rest).getD (0, rest)
          .ok (.float (.ofDecimal negative
            ⟨Nat.ofDigitChars 10 (whole ++ fraction) 0, power - fraction.length⟩), rest)

def readNumber : List Char → Step (Value × List Char)
  | '-' :: cs => readMagnitude ('-' :: cs) true cs
  | cs => readMagnitude cs false cs

/-! ### Values -/

/-- The words that are values. -/
def words : List (List Char × Value) :=
  [("null".toList, .null), ("true".toList, .bool true), ("false".toList, .bool false),
    ("NaN".toList, .float .nan), ("Infinity".toList, .float (.infinite false)),
    ("-Infinity".toList, .float (.infinite true))]

def readAtom (cs : List Char) : Step (Value × List Char) :=
  match words.find? fun w => w.1.isPrefixOf cs with
  | some (word, v) => .ok (v, cs.drop word.length)
  | none => readNumber cs

def readKey : List Char → Step (Scalar × List Char)
  | '"' :: cs => do
      let (text, rest) ← readText ('"' :: cs) cs.length cs
      match skipSpace rest with
      | ':' :: rest => return (.str (String.ofList text), skipSpace rest)
      | rest => .error (.malformed .expectingColon rest)
  | cs => .error (.malformed .expectingName cs)

mutual

/-- A value, with at most `fuel` values, members and elements in it that follow one another. -/
def readValue : (fuel : Nat) → List Char → Step (Value × List Char)
  | 0, cs => .error (.malformed .expectingValue cs)
  | fuel + 1, cs =>
      match cs with
      | '"' :: rest => do
          let (text, rest) ← readText ('"' :: rest) rest.length rest
          return (.str (String.ofList text), rest)
      | '[' :: rest =>
          match skipSpace rest with
          | ']' :: rest => .ok (.array [], rest)
          | rest => do
              let (xs, rest) ← readElements fuel rest
              return (.array xs, rest)
      | '{' :: rest =>
          match skipSpace rest with
          | '}' :: rest => .ok (.object [], rest)
          | rest => do
              let (ps, rest) ← readMembers fuel rest
              return (.object (Members.ofPairs ps), rest)
      | cs => readAtom cs

def readElements : (fuel : Nat) → List Char → Step (List Value × List Char)
  | 0, cs => .error (.malformed .expectingValue cs)
  | fuel + 1, cs => do
      let (x, rest) ← readValue fuel cs
      match skipSpace rest with
      | ']' :: rest => return ([x], rest)
      | ',' :: rest =>
          let (xs, rest) ← readElements fuel (skipSpace rest)
          return (x :: xs, rest)
      | rest => .error (.malformed .expectingComma rest)

def readMembers : (fuel : Nat) → List Char → Step (List (Scalar × Value) × List Char)
  | 0, cs => .error (.malformed .expectingName cs)
  | fuel + 1, cs => do
      let (k, rest) ← readKey cs
      let (v, rest) ← readValue fuel rest
      match skipSpace rest with
      | '}' :: rest => return ([(k, v)], rest)
      | ',' :: rest =>
          let (ps, rest) ← readMembers fuel (skipSpace rest)
          return ((k, v) :: ps, rest)
      | rest => .error (.malformed .expectingComma rest)

end

/-- The value that the characters denote, all of them. -/
def readAll (cs : List Char) : Except Stop Value :=
  match cs with
  | '﻿' :: _ => .error (.malformed .byteOrderMark cs)
  | _ => do
      let (v, rest) ← readValue (2 * cs.length + 2) (skipSpace cs)
      match skipSpace rest with
      | [] => return v
      | rest => .error (.malformed .extraData rest)

def Stop.toError (cs : List Char) : Stop → ReadError
  | .malformed defect rest => .malformed defect (.after (cs.take (cs.length - rest.length)))
  | .numeralTooLong count => .numeralTooLong count

def read (text : String) : Except ReadError Value :=
  (readAll text.toList).mapError (Stop.toError text.toList)

end SchemaForge.Json
