import SchemaForge.Fault
import SchemaForge.Text.Blank
import SchemaForge.Text.Digit

/-!
Paths as text: keys, and indices between brackets, each followed by at most one full stop. So
`properties.user` has two keys and `enum[1]` a key and an index, and the empty text is the empty path.
White space around the text does not count. A key goes on to the next full stop or opening bracket and is
never empty; an index is a row of digits of any script.
-/

namespace SchemaForge.Path

def isKeyChar (c : Char) : Bool := c ≠ '.' && c ≠ '['

/-- What follows a piece, without a full stop at its beginning. -/
def skipStop : List Char → List Char
  | '.' :: cs => cs
  | cs => cs

/-- The number that digits between brackets denote. -/
def readIndex (ds : List Char) : Except Fault Value :=
  let decimals := ds.takeWhile fun c => (Text.digitValue? c).isSome
  if Numeric.mostDigits < decimals.length then .error (.numeralTooLong decimals.length)
  else
    match Text.decimalValue? ds with
    | some n => .ok (.int n)
    | none => .error (.invalidNumeral (String.ofList ds))

def readPiece (text : String) : List Char → Except Fault (Value × List Char)
  | '[' :: cs =>
      let ds := cs.takeWhile (· ≠ ']')
      match cs.dropWhile (· ≠ ']') with
      | [] => .error (.unclosedIndex text)
      | _ :: rest =>
          if ds.isEmpty || !ds.all Text.isDigit then
            .error (.nonIntegerIndex (String.ofList ('[' :: (ds ++ [']']))))
          else do return (← readIndex ds, skipStop rest)
  | cs =>
      match cs.takeWhile isKeyChar with
      | [] => .error (.emptyKey text)
      | key => .ok (.str (String.ofList key), skipStop (cs.dropWhile isKeyChar))

def readPieces (text : String) : (fuel : Nat) → List Char → Except Fault Path
  | 0, _ => .ok []
  | _, [] => .ok []
  | fuel + 1, cs => do
      let (piece, rest) ← readPiece text cs
      return piece :: (← readPieces text fuel rest)

def parse (text : String) : Except Fault Path :=
  let cs := Text.trim text.toList
  readPieces text cs.length cs

end SchemaForge.Path
