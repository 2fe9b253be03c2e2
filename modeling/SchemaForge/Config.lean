import SchemaForge.Json.Defect
import SchemaForge.Value.Members

/-!
The configuration of an editor: the formats that a text may have, and named mock directives. It is read
from an object with a list `format`, whose entries are names or objects with a name and perhaps a title,
and a list `mock` of objects with a name and a directive. A missing list of formats means the usual ones.
-/

namespace SchemaForge

structure FormatOption where
  name : String
  title : Option String
  deriving DecidableEq

structure MockOption where
  name : String
  mock : String
  deriving DecidableEq

structure Config where
  formats : List FormatOption
  mocks : List MockOption
  deriving DecidableEq

inductive ConfigFault where
  | notObject
  | formatNotArray
  | formatTitle (index : Nat)
  | formatEntry (index : Nat)
  | mockNotArray
  | mockEntry (index : Nat)
  | malformed (file : String) (defect : Json.Defect) (place : Json.Place)
  deriving DecidableEq

namespace ConfigFault

def message : ConfigFault → String
  | .notObject => "config must be a JSON object"
  | .formatNotArray => "format: must be an array"
  | .formatTitle i => s!"format[{i}].title: must be a string"
  | .formatEntry i => s!"format[{i}]: must be a string or an object with a 'name'"
  | .mockNotArray => "mock: must be an array"
  | .mockEntry i => s!"mock[{i}]: must be an object with string 'name' and 'mock'"
  | .malformed file defect place => s!"Invalid JSON in config file {file}: {defect.located place}"

end ConfigFault

namespace Config

def defaultFormats : List FormatOption :=
  ["date-time", "date", "email", "hostname", "ipv4", "ipv6", "uri"].map (⟨·, none⟩)

def text? (name : String) (ms : Members) : Option String :=
  match Members.find? (.str name) ms with
  | some (.str s) => some s
  | _ => none

def formatEntry (index : Nat) : Value → Except ConfigFault FormatOption
  | .str name => .ok ⟨name, none⟩
  | .object ms =>
      match text? "name" ms with
      | none => .error (.formatEntry index)
      | some name =>
          match Members.find? (.str "title") ms with
          | none | some .null => .ok ⟨name, none⟩
          | some (.str title) => .ok ⟨name, some title⟩
          | some _ => .error (.formatTitle index)
  | _ => .error (.formatEntry index)

def mockEntry (index : Nat) : Value → Except ConfigFault MockOption
  | .object ms =>
      match text? "name" ms, text? "mock" ms with
      | some name, some mock => .ok ⟨name, mock⟩
      | _, _ => .error (.mockEntry index)
  | _ => .error (.mockEntry index)

def entries {α : Type} (entry : Nat → Value → Except ConfigFault α) (index : Nat) :
    List Value → Except ConfigFault (List α)
  | [] => .ok []
  | x :: xs => do
      let a ← entry index x
      return a :: (← entries entry (index + 1) xs)

def formatsOf (ms : Members) : Except ConfigFault (List FormatOption) :=
  match Members.find? (.str "format") ms with
  | none => .ok defaultFormats
  | some (.array xs) => entries formatEntry 0 xs
  | some _ => .error .formatNotArray

def mocksOf (ms : Members) : Except ConfigFault (List MockOption) :=
  match Members.find? (.str "mock") ms with
  | none => .ok []
  | some (.array xs) => entries mockEntry 0 xs
  | some _ => .error .mockNotArray

/-- The configuration that a value denotes. A fault in the formats is reported before one in the
directives. -/
def ofValue : Value → Except ConfigFault Config
  | .object ms => do
      let formats ← formatsOf ms
      let mocks ← mocksOf ms
      return ⟨formats, mocks⟩
  | _ => .error .notObject

def formatNames (config : Config) : List String := config.formats.map (·.name)

/-- The first directive of a name. -/
def mockDirective (config : Config) (name : String) : Option String :=
  (config.mocks.find? (·.name = name)).map (·.mock)

end Config

end SchemaForge
