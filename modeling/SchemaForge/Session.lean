import SchemaForge.Editor.Action
import SchemaForge.Inference.Schema
import SchemaForge.Json.Reader

/-!
A session: an editor that is seeded from a text, takes in samples and schemas as text, and gives its
document out as text. Whoever watches the session is told of changes late: a change is pending until it is
flushed, only the latest one counts, and a text that was the last one to be given out is not repeated.
-/

namespace SchemaForge

/-- The document of a change that is still to be told, and the text that was told last. -/
structure Notifier where
  pending : Option Value
  lastText : Option String
  deriving DecidableEq

namespace Notifier

/-- A notifier that has nothing to tell and has told nothing. -/
def idle : Notifier := ⟨none, none⟩

def hear (notifier : Notifier) (announced : List Value) : Notifier :=
  announced.foldl (fun n doc => { n with pending := some doc }) notifier

/-- Tells the pending change, unless its text was the last one told: the notifier afterwards and the text
to give out. -/
def flush (notifier : Notifier) : Notifier × Option String :=
  match notifier.pending with
  | none => (notifier, none)
  | some doc =>
      let text := Json.compactText doc
      if notifier.lastText = some text then (⟨none, notifier.lastText⟩, none)
      else (⟨none, some text⟩, some text)

def cancel (notifier : Notifier) : Notifier := { notifier with pending := none }

end Notifier

/-- A session. It has a notifier if somebody watches it. -/
structure Session where
  editor : Editor
  notifier : Option Notifier
  deriving DecidableEq

namespace Session

inductive Request where
  | apply (description : Value)
  | applyAll (descriptions : Value)
  | importJson (text title : Option String)
  | importSchema (text : Option String)
  | exportText (indent : Value)
  | flush
  | close
  | cancel
  deriving DecidableEq

/-- What comes of a step of a session: the session afterwards, the texts given out, the notices, and the
reply or a fault. -/
structure Outcome where
  session : Session
  emitted : List String
  notices : List Notice
  reply : Except Fault Value

/-- The document that a seed stands for, if it is one, with the notices of why it is not. An integer that
is too long is the one defect that is not passed over. -/
def seedDocument (seed : Option String) : Except Fault (Option Value × List Notice) :=
  match seed with
  | none => .ok (none, [])
  | some text =>
      if text = "" then .ok (none, [])
      else
        match Json.read text with
        | .error (.numeralTooLong count) => .error (.numeralTooLong count)
        | .error error => .ok (none, [.seedUnread error])
        | .ok (.object ms) => .ok (some (.object ms), [])
        | .ok _ => .ok (none, [.seedNotObject])

/-- A session that begins with a seed, with the notices of its beginning. -/
def start (seed : Option String) (watched : Bool) : Except Fault (Session × List Notice) := do
  let (doc, notices) ← seedDocument seed
  return (⟨← Editor.new doc, if watched then some .idle else none⟩, notices)

def after (session : Session) (outcome : Editor.Outcome) (notices : List Notice) : Outcome where
  session := ⟨outcome.editor, session.notifier.map (·.hear outcome.announced)⟩
  emitted := []
  notices := notices ++ outcome.notices
  reply := outcome.reply

def unchanged (session : Session) (notices : List Notice) (reply : Except Fault Value) : Outcome :=
  ⟨session, [], notices, reply⟩

def apply (session : Session) (description : Value) : Outcome :=
  session.after (session.editor.apply description) []

def applyAll (session : Session) (descriptions : Value) : Outcome :=
  session.after (session.editor.applyAll descriptions) []

/-- Puts a document in the place of the session's, and replies that it did. -/
def replace (session : Session) (root : Value) (notices : List Notice) : Outcome :=
  let outcome := session.editor.perform (.replaceDocument root)
  session.after { outcome with reply := outcome.reply.map fun _ => .bool true } notices

/-- The value that a text denotes, if there is a text and it denotes one. -/
def readInput (text : Option String) : Except (Option Json.ReadError) Value :=
  match text with
  | none => .error none
  | some text => (Json.read text).mapError some

/-- Takes in a sample: the document becomes its schema. A text that is none, and null, are passed over. -/
def importJson (session : Session) (text title : Option String) : Outcome :=
  match readInput text with
  | .error error => session.unchanged [.sampleUnread error] (.ok (.bool false))
  | .ok .null => session.unchanged [.sampleEmpty] (.ok (.bool false))
  | .ok v =>
      let sample := Sample.ofValue v
      match Inference.inferSchema sample title with
      | .error fault => session.unchanged [] (.error fault)
      | .ok schema => session.replace schema [.inferred sample.kind]

/-- Takes in a schema, which becomes the document. What is no object is passed over. -/
def importSchema (session : Session) (text : Option String) : Outcome :=
  match readInput text with
  | .error error => session.unchanged [.schemaUnread error] (.ok (.bool false))
  | .ok (.object ms) => session.replace (.object ms) []
  | .ok _ => session.unchanged [.schemaNotObject] (.ok (.bool false))

def exportText (session : Session) (indent : Value) : Except Fault String := session.editor.toJson indent

def flush (session : Session) : Outcome :=
  match session.notifier with
  | none => session.unchanged [] (.ok (.bool false))
  | some notifier =>
      let (notifier, text) := notifier.flush
      ⟨{ session with notifier := some notifier }, text.toList, [], .ok (.bool text.isSome)⟩

def cancel (session : Session) : Outcome :=
  { session with notifier := session.notifier.map Notifier.cancel }.unchanged [] (.ok .null)

/-- Tells the pending change for the last time. -/
def close (session : Session) : Outcome :=
  let flushed := session.flush
  ⟨flushed.session.cancel.session, flushed.emitted, [], .ok .null⟩

def perform (session : Session) : Request → Outcome
  | .apply description => session.apply description
  | .applyAll descriptions => session.applyAll descriptions
  | .importJson text title => session.importJson text title
  | .importSchema text => session.importSchema text
  | .exportText indent => session.unchanged [] ((session.exportText indent).map .str)
  | .flush => session.flush
  | .close => session.close
  | .cancel => session.cancel

end Session

end SchemaForge
