import SchemaForge.Fault
import SchemaForge.Inference.Sample
import SchemaForge.Json.Defect

/-!
Notices: what the parts of the program tell about their work. A notice is an event; its level, the part it
comes from and its sentence follow from it.
-/

namespace SchemaForge

inductive Level where
  | debug
  | info
  | warning
  | error
  deriving DecidableEq

namespace Level

def name : Level → String
  | .debug => "DEBUG"
  | .info => "INFO"
  | .warning => "WARNING"
  | .error => "ERROR"

def rank : Level → Nat
  | .debug => 0
  | .info => 1
  | .warning => 2
  | .error => 3

def all : List Level := [.debug, .info, .warning, .error]

end Level

inductive Notice where
  | inferred (kind : Kind)
  | replacing (type : Value)
  | switchingRequired (required : Value)
  | deleting (path : Path)
  | setting (path : Path)
  | retyping (path : Path) (old new : Value)
  | renameRejected (old new : Value)
  | renamed (old new : Value) (path : Path)
  | deleted (path : Path)
  | addedField (name : String) (path : Path)
  | addedChild (name : String) (path : Path)
  | seedUnread (error : Json.ReadError)
  | seedNotObject
  | sampleUnread (error : Option Json.ReadError)
  | sampleEmpty
  | schemaUnread (error : Option Json.ReadError)
  | schemaNotObject
  | configLoaded (formats mocks : Nat) (file : String)
  | unknownFormat (format : String)
  deriving DecidableEq

namespace Notice

/-- The level of a notice. What a user gave in vain is a warning. -/
def level : Notice → Level
  | .sampleUnread _ => .warning
  | .sampleEmpty => .warning
  | .schemaUnread _ => .warning
  | .schemaNotObject => .warning
  | .unknownFormat _ => .warning
  | _ => .debug

def source : Notice → String
  | .inferred _ => "inference"
  | .seedUnread _ => "session"
  | .seedNotObject => "session"
  | .sampleUnread _ => "session"
  | .sampleEmpty => "session"
  | .schemaUnread _ => "session"
  | .schemaNotObject => "session"
  | .configLoaded _ _ _ => "config"
  | .unknownFormat _ => "cli"
  | _ => "editor"

/-- Why a text was not read; without a text there is no input. -/
def reason : Option Json.ReadError → String
  | none => "no input"
  | some error => error.message

def message : Notice → String
  | .inferred kind => s!"inferred {kind.rootKind.name} schema from {kind.name} sample"
  | .replacing type => s!"replacing document (root type {type.bareText})"
  | .switchingRequired required => s!"setting required={required.bareText} on every object node"
  | .deleting path => s!"deleting {path.join}"
  | .setting path => s!"setting {path.join}"
  | .retyping path old new =>
      let place := if path.join = "" then "<root>" else path.join
      s!"retyping {place}: {old.bareText} -> {new.bareText}"
  | .renameRejected old new => s!"rename {old.bareText} -> {new.bareText} rejected: name taken"
  | .renamed old new path => s!"renamed {old.bareText} -> {new.bareText} under {path.join}"
  | .deleted path => s!"deleted {path.join}"
  | .addedField name path => s!"added field {name} under {path.join}"
  | .addedChild name path => s!"added child field {name} under {path.join}"
  | .seedUnread error => s!"unparsable seed ignored: {error.message}"
  | .seedNotObject => "seed is not a JSON object; using the default document"
  | .sampleUnread error => s!"ignored invalid JSON sample: {reason error}"
  | .sampleEmpty => "ignored empty JSON sample"
  | .schemaUnread error => s!"ignored invalid JSON schema: {reason error}"
  | .schemaNotObject => "ignored JSON schema that is not an object"
  | .configLoaded formats mocks file =>
      s!"loaded {formats} formats and {mocks} mock directives from {file}"
  | .unknownFormat format => s!"format {Text.quote format} is not in the configured format list"

def line (notice : Notice) : String :=
  s!"{notice.level.name} schema_editor.{notice.source}: {notice.message}"

end Notice

end SchemaForge
