import SchemaForge.Proofs.Command.Runs
import SchemaForge.Proofs.Editor.RootObject
import SchemaForge.Proofs.Inference.Normality
import SchemaForge.Proofs.Json.Reading
import SchemaForge.Session

/-!
Taking in a sample. A session makes the schema of the sample its document, which brings it into normal form,
and a command line puts the schema out as it is. Since inferred schemas are in normal form already, the two
give the same schema for the same sample.
-/

namespace SchemaForge

namespace Session

/-- An object that is put in the place of a document is committed once, in its normal form. -/
theorem exists_replace_object (session : Session) (ms : Members) (notices : List Notice) :
    ∃ told, session.replace (.object ms) notices =
      session.after ⟨{ session.editor with document := Schema.normalize (.object ms) },
        [Schema.normalize (.object ms)], told, .ok (.bool true)⟩ notices := by
  obtain ⟨ns, hns, -⟩ := Schema.normalize_object ms
  have hprepare : prepare (.object ms) = .ok (.object ns) := by rw [prepare, hns]
  have hrun : ((Operation.replaceDocument (.object ms)).draft session.editor.document
      session.editor.openNodes).run.run ⟨session.editor.nextField, []⟩ =
        (.ok (Draft.commit session.editor.openNodes (.object ns)), ⟨session.editor.nextField,
          [.replacing ((Members.find? (.str "type") ns).getD .null)]⟩) := by
    rw [Operation.draft, Draft.replaceDocument, hprepare]
    rfl
  refine ⟨[.replacing ((Members.find? (.str "type") ns).getD .null)], ?_⟩
  rw [replace, Editor.perform_eq, hrun, hns]
  rfl

/-- Putting an object in the place of a document gives its normal form. -/
theorem replace_object (session : Session) (ms : Members) (notices : List Notice) :
    (session.replace (.object ms) notices).reply = .ok (.bool true) ∧
      (session.replace (.object ms) notices).session.editor.document =
        Schema.normalize (.object ms) := by
  obtain ⟨told, heq⟩ := session.exists_replace_object ms notices
  rw [heq]
  exact ⟨rfl, rfl⟩

/-- A text that denotes a value other than null is taken in with the schema of that value. -/
theorem importJson_of_read (session : Session) {text : String} {v schema : Value}
    {title : Option String} (hread : Json.read text = .ok v) (hnull : v ≠ .null)
    (hschema : Inference.inferSchema (Sample.ofValue v) title = .ok schema) :
    session.importJson (some text) title =
      session.replace schema [.inferred (Sample.ofValue v).kind] := by
  have hinput : readInput (some text) = .ok v := by rw [readInput, hread]; rfl
  rw [importJson, hinput]
  split
  · contradiction
  · next heq => exact absurd (Except.ok.inj heq) hnull
  · next heq =>
      cases heq
      simp only [hschema]

/-- The schema of a JSON sample other than null is its own normal form. A session that takes the sample in
has this schema as its document, and a command line that asks for the schema of the sample puts it out. Texts
pair their halves here. -/
theorem document_importJson {v : Value} (hv : v.IsJson) (hnull : v ≠ .null) (title : Option String) :
    ∃ schema, Inference.inferSchema (Sample.ofValue v) title = .ok schema ∧
      Schema.normalize schema = schema ∧
      (∀ (session : Session) (text : String), Json.read text = .ok v →
        (session.importJson (some text) title).reply = .ok (.bool true) ∧
          (session.importJson (some text) title).session.editor.document = schema) ∧
      ∀ around words settings config, Command.Understood around words .infer settings config v →
        settings.title = title → (Command.run around words).ending =
          .text (Command.outputFile settings) (Command.outputText settings.minify schema) := by
  obtain ⟨ms, hschema, hnormal⟩ := Inference.exists_isNormal_inferSchema
    (Sample.isJson_ofValue hv) (Sample.ofValue_ne_null hnull) title
  refine ⟨.object ms, hschema, hnormal, fun session text hread => ?_, ?_⟩
  · obtain ⟨hreply, hdocument⟩ := session.replace_object ms [.inferred (Sample.ofValue v).kind]
    rw [session.importJson_of_read hread hnull hschema]
    exact ⟨hreply, hdocument.trans hnormal⟩
  · rintro around words settings config understood rfl
    exact understood.ending_infer hschema

def numberAndText : String := "[1, \"a\"]"

/-- A number and a text, taken in as rows. -/
theorem document_importJson_rows :
    (Session.importJson ⟨Editor.emptyEditor, none⟩ (some numberAndText)
      (some "Row")).session.editor.document =
      .object [(.str "type", .str "array"), (.str "title", .str "Row Set"), (.str "items", .object
        [(.str "oneOf", .array [.object [(.str "type", .str "number")],
          .object [(.str "type", .str "string")]]), (.str "title", .str "Row")])] ∧
      (Command.run ⟨some numberAndText, fun _ => .error .missing⟩
        ["infer", "--minify", "--title", "Row"]).ending =
          .text none ("\x7b\"type\":\"array\",\"title\":\"Row Set\",\"items\":\x7b\"oneOf\":" ++
            "[\x7b\"type\":\"number\"\x7d,\x7b\"type\":\"string\"\x7d],\"title\":\"Row\"\x7d\x7d\n") := by
  have hread : Json.read numberAndText = .ok (.array [.int 1, .str "a"]) := by decide +kernel
  have hv : (Value.array [.int 1, .str "a"]).IsJson := (Json.isReadable_of_read hread).isJson
  have understood : Command.Understood ⟨some numberAndText, fun _ => .error .missing⟩
      ["infer", "--minify", "--title", "Row"] .infer
      { Command.Settings.initial with title := some "Row", minify := true } none
      (.array [.int 1, .str "a"]) := by
    refine ⟨rfl, rfl, rfl, _, rfl, ?_⟩
    have hlines : String.ofList (Command.unifyLineEnds numberAndText.toList) = numberAndText := by
      decide +kernel
    have hinput : Command.readInputText numberAndText = .ok (.array [.int 1, .str "a"]) := by
      rw [Command.readInputText, hlines, hread]
      rfl
    simp only [Command.takeInput, if_true, Command.Run.result_orStop, hinput]
    rfl
  obtain ⟨schema, heq, -, hsession, hcommand⟩ :=
    document_importJson hv (by simp) (some "Row")
  cases heq
  exact ⟨(hsession _ _ hread).2, hcommand _ _ _ _ understood rfl⟩

end Session

end SchemaForge
