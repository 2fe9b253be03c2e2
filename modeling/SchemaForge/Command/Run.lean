import SchemaForge.Command.Arguments
import SchemaForge.Command.Folder
import SchemaForge.Editor.Action
import SchemaForge.Inference.Schema
import SchemaForge.Schema.Formats

/-!
The program from its command line to its ending. It reads a configuration if one is named, then its input,
and for an edit the operations; it does its task on them, checks formats against the configuration, and
ends by printing or writing one JSON text. Whatever the user can mend ends it with an error line, and what
nobody foresaw breaks it off. Only an ending with a text has any effect outside.
-/

namespace SchemaForge.Command

/-- The surroundings of a run: the text on standard input, unless that is a terminal, and what opening a
file gives. -/
structure Surroundings where
  stdin : Option String
  openFile : String → Except Obstacle ByteArray

inductive Complaint where
  | usage (task : Option Task) (fault : UsageFault)
  | fileNotFound (label file : String)
  | invalidJson (source : String) (defect : Json.Defect) (place : Json.Place)
  | badConfig (fault : ConfigFault)
  | schemaNotObject (file : String)
  | operationsShape (file : String)
  | operationFailed (index : Nat) (name : Value) (fault : Fault)

namespace Complaint

def line : Complaint → String
  | .usage task fault => errorHead task ++ fault.message
  | .fileNotFound label file => errorHead none ++ s!"{label} not found: {file}"
  | .invalidJson source defect place =>
      errorHead none ++ s!"Invalid JSON in {source}: {defect.located place}"
  | .badConfig fault => errorHead none ++ fault.message
  | .schemaNotObject file => errorHead none ++ s!"Schema in {file} must be a JSON object"
  | .operationsShape file =>
      errorHead none ++ s!"Operations file {file} must hold an object or an array of objects"
  | .operationFailed index name fault =>
      errorHead none ++ s!"operation {index} ({name.quotedText}) failed: {fault.message}"

end Complaint

/-- What breaks the program off. A flag that is given and names nothing breaks it off where it is to be
used. -/
inductive Breakdown where
  | namesNothing (flag : Flag)
  | obstacle (o : Obstacle)
  | notUtf8
  | numeralTooLong (count : Nat)
  | fault (f : Fault)

inductive Ending where
  | help
  | text (output : Option String) (text : String)
  | complaint (c : Complaint)
  | breakdown (b : Breakdown)

/-- A run, or the part of one so far: the notices and what it has come to. A stage reads and reckons and does
nothing else outside; what is printed or written, is so by the report on the ending, after the last stage. -/
structure Run (α : Type) where
  notices : List Notice
  result : Except Ending α

namespace Run

def pure {α : Type} (a : α) : Run α := ⟨[], .ok a⟩

def bind {α β : Type} (run : Run α) (next : α → Run β) : Run β :=
  match run.result with
  | .ok a => ⟨run.notices ++ (next a).notices, (next a).result⟩
  | .error ending => ⟨run.notices, .error ending⟩

instance : Monad Run where
  pure := Run.pure
  bind := Run.bind

def stop {α : Type} (ending : Ending) : Run α := ⟨[], .error ending⟩

def tell (notice : Notice) : Run Unit := ⟨[notice], .ok ()⟩

def orStop {ε α : Type} (ending : ε → Ending) (result : Except ε α) : Run α :=
  ⟨[], result.mapError ending⟩

end Run

/-- The file that a flag names, or the usual one if the flag is not given. -/
def nameOfFile (flag : Flag) (usual : String) : FileChoice → Run String
  | .absent => .pure usual
  | .nameless => .stop (.breakdown (.namesNothing flag))
  | .named file => .pure file

/-- The ending of a run whose input gives no value. The label says what kind of file it is, and the source
where its text is from. -/
def inputEnding (label file source : String) : InputFault → Ending
  | .obstacle .missing => .complaint (.fileNotFound label file)
  | .obstacle o => .breakdown (.obstacle o)
  | .notUtf8 => .breakdown .notUtf8
  | .unread (.malformed defect place) => .complaint (.invalidJson source defect place)
  | .unread (.numeralTooLong count) => .breakdown (.numeralTooLong count)

/-- The value that a task works on: from standard input if the usual file is asked for and something is
there, and else from the file. -/
def takeInput (around : Surroundings) (task : Task) (file : String) : Run Value :=
  match around.stdin with
  | some text =>
      if file = task.defaultInput then
        .orStop (inputEnding "Input file" file "stdin") (readInputText text)
      else .orStop (inputEnding "Input file" file s!"input file {file}") (readInput (around.openFile file))
  | none => .orStop (inputEnding "Input file" file s!"input file {file}") (readInput (around.openFile file))

def takeConfig (around : Surroundings) (file : Option String) : Run (Option Config) :=
  match file with
  | none => .pure none
  | some file =>
      if file = "" then .pure none
      else
        match loadConfig file (around.openFile file) with
        | .ok (config, notice) => do
            .tell notice
            return some config
        | .error (.config fault) => .stop (.complaint (.badConfig fault))
        | .error (.input fault) =>
            .stop (inputEnding "Config file" file s!"config file {file}" fault)

def takeOperations (around : Surroundings) (file : String) : Run (List Value) := do
  let v ← Run.orStop (inputEnding "Operations file" file s!"operations file {file}")
    (readInput (around.openFile file))
  let ops := match v with
    | .object ms => Value.array [.object ms]
    | v => v
  match ops with
  | .array xs =>
      if xs.all Value.isObject then return xs else .stop (.complaint (.operationsShape file))
  | _ => .stop (.complaint (.operationsShape file))

/-- Whether a failing operation is reported. One that meets a value of the wrong shape is not. -/
def isReported : Fault → Bool
  | .wrongShape => false
  | .objectWithoutPositions => false
  | .indentTooLarge => false
  | .memoryExhausted => false
  | _ => true

def operationName (v : Value) : Value :=
  match v with
  | .object ms => (Members.find? (.str "op") ms).getD .null
  | _ => .null

/-- The editor after something was asked of it, or the ending that its fault leads to. -/
def ofOutcome (ending : Fault → Ending) (outcome : Editor.Outcome) : Run Editor :=
  ⟨outcome.notices, match outcome.reply with
    | .ok _ => .ok outcome.editor
    | .error fault => .error (ending fault)⟩

def operationEnding (index : Nat) (operation : Value) (fault : Fault) : Ending :=
  if isReported fault then .complaint (.operationFailed index (operationName operation) fault)
  else .breakdown (.fault fault)

def applyOperations (editor : Editor) (index : Nat) : List Value → Run Editor
  | [] => .pure editor
  | op :: ops => do
      let next ← ofOutcome (operationEnding index op) (editor.apply op)
      applyOperations next (index + 1) ops

/-- Sets the switch for required fields, if that is asked for. -/
def applyRequire (editor : Editor) (require : Option Bool) : Run Editor :=
  match require with
  | none => .pure editor
  | some b => ofOutcome (.breakdown ∘ .fault) (editor.perform (.setAllRequired (.bool b)))

def checkFormats (config : Option Config) (doc : Value) : Run Unit :=
  match config with
  | none => .pure ()
  | some config =>
      match Schema.unknownFormats config.formatNames doc with
      | .error fault => .stop (.breakdown (.fault fault))
      | .ok formats => ⟨formats.map .unknownFormat, .ok ()⟩

def runInfer (around : Surroundings) (settings : Settings) (file : String) : Run Value := do
  let data ← takeInput around .infer file
  let sample := Sample.ofValue data
  let schema ← Run.orStop (.breakdown ∘ .fault) (Inference.inferSchema sample settings.title)
  .tell (.inferred sample.kind)
  return schema

def runEdit (around : Surroundings) (task : Task) (settings : Settings) (config : Option Config)
    (file : String) : Run Value := do
  let doc ← takeInput around task file
  if !doc.isObject then .stop (.complaint (.schemaNotObject file))
  let editor ← Run.orStop (.breakdown ∘ .fault) (Editor.new (some doc))
  let operations ← match task with
    | .edit => do takeOperations around (← nameOfFile .ops "" settings.ops)
    | _ => .pure []
  let edited ← applyOperations editor 0 operations
  let switched ← applyRequire edited settings.require
  checkFormats config switched.document
  return switched.document

def runTask (around : Surroundings) (invocation : Invocation) : Run Value := do
  let settings := invocation.settings
  let config ← takeConfig around settings.config
  let file ← nameOfFile .input invocation.task.defaultInput settings.input
  match invocation.task with
  | .infer => runInfer around settings file
  | task => runEdit around task settings config file

def outputText (minify : Bool) (v : Value) : String :=
  Json.write (if minify then .minified else .indented [' ', ' ']) v ++ "\n"

def outputFile (settings : Settings) : Option String := settings.output.filter (· ≠ "")

/-- What a run leaves: the lines of the notices that matter enough, and its ending. -/
structure Report where
  lines : List String
  ending : Ending

def linesFrom (level : Level) (notices : List Notice) : List String :=
  (notices.filter fun n => level.rank ≤ n.level.rank).map Notice.line

def run (around : Surroundings) (words : List String) : Report :=
  match readArguments words with
  | .error .help => ⟨[], .help⟩
  | .error (.usage task fault) => ⟨[], .complaint (.usage task fault)⟩
  | .ok invocation =>
      let settings := invocation.settings
      match settings.logLevel with
      | none => ⟨[], .breakdown (.namesNothing .logLevel)⟩
      | some level =>
          let done := runTask around invocation
          ⟨linesFrom level done.notices,
            match done.result with
            | .ok v => .text (outputFile settings) (outputText settings.minify v)
            | .error ending => ending⟩

/-! ### Runs in a folder -/

/-- What a run in a folder comes to: the exit status, the texts on the standard outputs, the folder
afterwards, and what broke the run off if something did. -/
structure Result where
  exit : Nat
  stdout : String
  stderr : String
  folder : Folder
  breakdown : Option Breakdown

def joinLines (lines : List String) : String := String.join (lines.map (· ++ "\n"))

def Report.result (report : Report) (folder : Folder) : Result :=
  let stderr := joinLines report.lines
  match report.ending with
  | .help => ⟨0, "", stderr, folder, none⟩
  | .text none text => ⟨0, text, stderr, folder, none⟩
  | .text (some file) text =>
      match folder.write file text with
      | .ok folder => ⟨0, "", stderr, folder, none⟩
      | .error o => ⟨1, "", stderr, folder, some (.obstacle o)⟩
  | .complaint c => ⟨2, "", stderr ++ c.line ++ "\n", folder, none⟩
  | .breakdown b => ⟨1, "", stderr, folder, some b⟩

def runIn (folder : Folder) (stdin : Option String) (words : List String) : Result :=
  (run ⟨stdin, folder.read⟩ words).result folder

end SchemaForge.Command
