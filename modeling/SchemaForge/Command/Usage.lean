import SchemaForge.Notice
import SchemaForge.Text.Quoted

/-!
The words of the command line: the commands, the flags that each of them takes, and what can be wrong with
how they are used.
-/

namespace SchemaForge.Command

def programName : String := "schema-editor"

inductive Task where
  | infer
  | normalize
  | edit
  deriving DecidableEq

namespace Task

def word : Task → String
  | .infer => "infer"
  | .normalize => "normalize"
  | .edit => "edit"

def all : List Task := [.infer, .normalize, .edit]

def ofWord? (w : String) : Option Task := all.find? (·.word = w)

/-- The file that a task reads unless another one is named. -/
def defaultInput : Task → String
  | .infer => "file.json"
  | _ => "schema.json"

end Task

inductive Flag where
  | help
  | logLevel
  | config
  | input
  | title
  | ops
  | requireAll
  | requireNone
  | output
  | minify
  deriving DecidableEq

namespace Flag

def spellings : Flag → List String
  | .help => ["-h", "--help"]
  | .logLevel => ["--log-level"]
  | .config => ["--config"]
  | .input => ["-i", "--input"]
  | .title => ["--title"]
  | .ops => ["--ops"]
  | .requireAll => ["--require-all"]
  | .requireNone => ["--require-none"]
  | .output => ["-o", "--output"]
  | .minify => ["--minify"]

def label (flag : Flag) : String := "/".intercalate flag.spellings

def takesValue : Flag → Bool
  | .help => false
  | .requireAll => false
  | .requireNone => false
  | .minify => false
  | _ => true

def general : List Flag := [.help, .logLevel, .config]

def ofTask : Task → List Flag
  | .infer => [.help, .input, .title, .output, .minify]
  | .normalize => [.help, .input, .requireAll, .requireNone, .output, .minify]
  | .edit => [.help, .input, .ops, .requireAll, .requireNone, .output, .minify]

end Flag

inductive UsageFault where
  | ambiguous (word : String) (candidates : List String)
  | expectedArgument (flag : Flag)
  | ignoredArgument (flag : Flag) (value : String)
  | invalidLevel (word : String)
  | invalidTask (word : String)
  | notAllowed (flag other : Flag)
  | required (names : List String)
  | unrecognized (words : List String)
  deriving DecidableEq

namespace UsageFault

def invalidChoice (argument word : String) (choices : List String) : String :=
  s!"argument {argument}: invalid choice: {Text.quote word} (choose from " ++
    ", ".intercalate (choices.map Text.quote) ++ ")"

def message : UsageFault → String
  | .ambiguous word candidates =>
      s!"ambiguous option: {word} could match " ++ ", ".intercalate candidates
  | .expectedArgument flag => s!"argument {flag.label}: expected one argument"
  | .ignoredArgument flag value =>
      s!"argument {flag.label}: ignored explicit argument {Text.quote value}"
  | .invalidLevel word => invalidChoice Flag.logLevel.label word (Level.all.map Level.name)
  | .invalidTask word => invalidChoice "command" word (Task.all.map Task.word)
  | .notAllowed flag other => s!"argument {flag.label}: not allowed with argument {other.label}"
  | .required names => "the following arguments are required: " ++ ", ".intercalate names
  | .unrecognized words => "unrecognized arguments: " ++ " ".intercalate words

end UsageFault

def errorHead (task : Option Task) : String :=
  match task with
  | none => s!"{programName}: error: "
  | some t => s!"{programName} {t.word}: error: "

end SchemaForge.Command
