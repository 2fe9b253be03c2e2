import SchemaForge.Config
import SchemaForge.Json.Reader
import SchemaForge.Notice

/-!
Reading JSON from a file or from standard input. Bytes become text if they are well-formed UTF-8, whatever
ends a line becomes a line feed, and the text has to denote a value. What a file itself may lack is an
obstacle, which whoever opens the file reports.
-/

namespace SchemaForge.Command

inductive Obstacle where
  | missing
  | isDirectory
  | notDirectory
  | nameTooLong
  | nullCharacter
  deriving DecidableEq

inductive InputFault where
  | obstacle (o : Obstacle)
  | notUtf8
  | unread (error : Json.ReadError)

/-- A text in which every line ends with a line feed alone. -/
def unifyLineEnds : List Char → List Char
  | [] => []
  | '\r' :: cs =>
      match cs with
      | '\n' :: rest => '\n' :: unifyLineEnds rest
      | rest => '\n' :: unifyLineEnds rest
  | c :: cs => c :: unifyLineEnds cs

def readInputText (text : String) : Except InputFault Value :=
  (Json.read (String.ofList (unifyLineEnds text.toList))).mapError .unread

def readInput (content : Except Obstacle ByteArray) : Except InputFault Value := do
  let bytes ← content.mapError .obstacle
  match String.fromUTF8? bytes with
  | none => .error .notUtf8
  | some text => readInputText text

/-- Why no configuration could be read. A missing file, a text that is no UTF-8 and an integer that is too
long are not the configuration's own faults. -/
inductive LoadFault where
  | input (fault : InputFault)
  | config (fault : ConfigFault)

def loadConfig (file : String) (content : Except Obstacle ByteArray) :
    Except LoadFault (Config × Notice) :=
  match readInput content with
  | .error (.unread (.malformed defect place)) => .error (.config (.malformed file defect place))
  | .error fault => .error (.input fault)
  | .ok v =>
      match Config.ofValue v with
      | .error fault => .error (.config fault)
      | .ok config => .ok (config, .configLoaded config.formats.length config.mocks.length file)

end SchemaForge.Command
