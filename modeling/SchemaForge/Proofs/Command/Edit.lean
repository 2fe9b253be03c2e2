import SchemaForge.Proofs.Command.Runs
import SchemaForge.Proofs.Command.Stray
import SchemaForge.Proofs.Editor.RequiredSwitch
import SchemaForge.Proofs.Json.Reading
import SchemaForge.Proofs.Json.Texts

/-!
How an edit ends. Its operations are carried out in turn, and either all of them succeed or the first one
that fails ends the run. That ending is a line for the user, unless the operation took a stray value: then
the run breaks off, and so it does if all fields are to be required, or none, of a document that is no object
any more.
-/

namespace SchemaForge

namespace Editor

/-- An editor of an object. -/
def ofObject (root : Members) : Editor := ⟨Schema.normalize (.object root), .initial, 1, []⟩

theorem new_object (root : Members) : Editor.new (some (.object root)) = .ok (ofObject root) := rfl

/-- Operations that all succeed lead, one by one, from one editor to another. -/
inductive Ran : Editor → List Value → Editor → Prop where
  | nil (editor : Editor) : Ran editor [] editor
  | cons {editor last : Editor} {d reply : Value} {ds : List Value}
      (succeeds : (editor.apply d).reply = .ok reply) (ran : Ran (editor.apply d).editor ds last) :
      Ran editor (d :: ds) last

/-- The operation of several that is the first to fail, with those before it and the editor that it meets. -/
structure FailsFirst (editor : Editor) (ops before : List Value) (middle : Editor) (op : Value)
    (fault : Fault) : Prop where
  among : ∃ after, ops = before ++ op :: after
  ran : Ran editor before middle
  fails : (middle.apply op).reply = .error fault

/-- Of several operations all succeed, or there is a first that fails. -/
theorem ran_cases (ops : List Value) :
    ∀ editor : Editor, (∃ last, Ran editor ops last) ∨
      ∃ before middle op fault, FailsFirst editor ops before middle op fault := by
  induction ops with
  | nil => exact fun editor => .inl ⟨editor, .nil editor⟩
  | cons op ops ih =>
      intro editor
      cases hreply : (editor.apply op).reply with
      | error fault =>
          exact .inr ⟨[], editor, op, fault, ⟨ops, rfl⟩, .nil editor, hreply⟩
      | ok reply =>
          rcases ih (editor.apply op).editor with ⟨last, ran⟩ |
            ⟨before, middle, failing, fault, ⟨after, rfl⟩, ran, fails⟩
          · exact .inl ⟨last, .cons hreply ran⟩
          · exact .inr ⟨op :: before, middle, failing, fault, ⟨after, rfl⟩, .cons hreply ran, fails⟩

/-- What describes an operation that takes no stray value fails with faults only that are reported. -/
theorem reports_apply {editor : Editor} {description : Value} (isObject : description.isObject = true)
    (hjson : description.IsJson)
    (h : ∀ operation, Operation.ofValue description = .ok operation →
      ¬ TakesStray editor.document operation) : Reports (editor.apply description).reply := by
  have hread := Operation.reports_ofValue isObject hjson
  rw [apply_eq]
  split
  · next operation hoperation => exact reports_perform (h operation hoperation)
  · next fault hfault => exact reports_error (hread fault hfault)

end Editor

namespace Command

open Editor (Ran FailsFirst TakesStray)

/-! ### Operations in turn -/

theorem applyOperations_append {editor middle : Editor} {before after : List Value}
    (ran : Ran editor before middle) :
    ∀ index, (applyOperations editor index (before ++ after)).result =
      (applyOperations middle (index + before.length) after).result := by
  induction ran with
  | nil editor => exact fun _ => rfl
  | @cons _ _ _ _ ds succeeds _ ih =>
      intro index
      rw [List.cons_append, applyOperations, Run.result_bind, ofOutcome, succeeds, List.length_cons,
        Nat.add_comm ds.length, ← Nat.add_assoc]
      exact ih (index + 1)

theorem applyOperations_of_failsFirst {editor middle : Editor} {ops before : List Value} {op : Value}
    {fault : Fault} (first : FailsFirst editor ops before middle op fault) :
    (applyOperations editor 0 ops).result = .error (operationEnding before.length op fault) := by
  obtain ⟨⟨after, rfl⟩, ran, fails⟩ := first
  rw [applyOperations_append ran, applyOperations, Run.result_bind, ofOutcome, fails, Nat.zero_add]
  rfl

theorem applyOperations_of_ran {editor last : Editor} {ops : List Value}
    (ran : Ran editor ops last) :
    (applyOperations editor 0 ops).result = .ok last := by
  have happend : (applyOperations editor 0 (ops ++ [])).result = .ok last :=
    applyOperations_append ran 0
  rwa [List.append_nil] at happend

/-! ### Inputs -/

/-- A text in which no line ends in another way than with a line feed is read as it is. -/
theorem readInputText_of_read {text : String} {v : Value} (lines : unifyLineEnds text.toList = text.toList)
    (hread : Json.read text = .ok v) : readInputText text = .ok v := by
  rw [readInputText, lines, String.ofList_toList, hread]
  rfl

/-- A value that a text denotes can be read, whatever ended the lines of the text. -/
theorem isReadable_of_readInputText {text : String} {v : Value} (h : readInputText text = .ok v) :
    v.IsReadable := by
  rw [readInputText] at h
  cases hread : Json.read (String.ofList (unifyLineEnds text.toList)) with
  | error error =>
      rw [hread] at h
      cases h
  | ok w =>
      rw [hread] at h
      cases h
      exact Json.isReadable_of_read hread

theorem isReadable_of_readInput {content : Except Obstacle ByteArray} {v : Value}
    (h : readInput content = .ok v) : v.IsReadable := by
  obtain ⟨bytes, -, h⟩ := bind_eq_ok_iff.mp h
  split at h
  · cases h
  · exact isReadable_of_readInputText h

/-- A file that holds a text gives what the text gives. -/
theorem readInput_toUTF8 (text : String) : readInput (.ok text.toUTF8) = readInputText text := by
  have hutf8 : String.fromUTF8? text.toUTF8 = some text := dif_pos text.isValidUTF8
  simp only [readInput, Except.mapError, ok_bind, hutf8]

theorem isReadable_of_takeInput {around : Surroundings} {task : Task} {file : String} {v : Value}
    (h : (takeInput around task file).result = .ok v) : v.IsReadable := by
  unfold takeInput at h
  split at h
  · split at h
    · exact isReadable_of_readInputText (Run.result_orStop_eq_ok_iff.mp h)
    · exact isReadable_of_readInput (Run.result_orStop_eq_ok_iff.mp h)
  · exact isReadable_of_readInput (Run.result_orStop_eq_ok_iff.mp h)

/-! ### The command line of an edit -/

/-- The operations that a value lists: an object is one, and a list of objects is several. -/
inductive ListsOperations : Value → List Value → Prop where
  | one (ms : Members) : ListsOperations (.object ms) [.object ms]
  | several {ops : List Value} (objects : ∀ op ∈ ops, op.isObject = true) :
      ListsOperations (.array ops) ops

theorem ListsOperations.isObject {v : Value} {ops : List Value} (h : ListsOperations v ops) :
    ∀ op ∈ ops, op.isObject = true := by
  cases h with
  | one ms => simp [Value.isObject]
  | several objects => exact objects

theorem ListsOperations.isJson {v : Value} {ops : List Value} (h : ListsOperations v ops)
    (hv : v.IsJson) : ∀ op ∈ ops, op.IsJson := by
  cases h with
  | one ms => simpa using hv
  | several _ => exact Value.isJson_array_iff.mp hv

theorem takeOperations_eq_ok_iff {around : Surroundings} {file : String} {ops : List Value} :
    (takeOperations around file).result = .ok ops ↔
      ∃ v, readInput (around.openFile file) = .ok v ∧ ListsOperations v ops := by
  rw [takeOperations, Run.result_bind, bind_eq_ok_iff]
  refine exists_congr fun v => and_congr Run.result_orStop_eq_ok_iff ⟨fun h => ?_, fun h => ?_⟩
  · cases v with
    | object ms =>
        cases h
        exact .one ms
    | array xs =>
        dsimp only at h
        split at h
        · next hall =>
            cases h
            exact .several (List.all_eq_true.mp hall)
        · cases h
    | _ => cases h
  · cases h with
    | one ms => rfl
    | several objects =>
        dsimp only
        rw [if_pos (List.all_eq_true.mpr objects)]
        rfl

def fileText? (around : Surroundings) (file : String) : Option String :=
  (around.openFile file).toOption.bind String.fromUTF8?

def inputText? (around : Surroundings) (file : String) : Option String :=
  if file = Task.edit.defaultInput then around.stdin.or (fileText? around file) else fileText? around file

/-- A command line that asks for an edit, with the object that is its input and the operations in its other
file. It asks for no configuration and names no file for the output. No text that it reads has an escape for half
of a character alone: the document would take it in, and no output could be written with it. -/
structure AsksEdit (around : Surroundings) (words : List String) (settings : Settings) (root : Members)
    (ops : List Value) : Prop where
  understood : Understood around words .edit settings none (.object root)
  operations : ∃ file v, (nameOfFile .ops "" settings.ops).result = .ok file ∧
    readInput (around.openFile file) = .ok v ∧ ListsOperations v ops
  noFile : outputFile settings = none
  inputPairs : ∀ file, (nameOfFile .input Task.edit.defaultInput settings.input).result = .ok file →
    ∀ text ∈ inputText? around file, Json.PairsHalves text.toList
  operationsPair : ∀ file, (nameOfFile .ops "" settings.ops).result = .ok file →
    ∀ text ∈ fileText? around file, Json.PairsHalves text.toList

namespace AsksEdit

variable {around : Surroundings} {words : List String} {settings : Settings} {root : Members}
  {ops : List Value} (h : AsksEdit around words settings root ops)

include h

theorem isObject : ∀ op ∈ ops, op.isObject = true := by
  obtain ⟨file, v, -, -, hlists⟩ := h.operations
  exact hlists.isObject

theorem isJson : ∀ op ∈ ops, op.IsJson := by
  obtain ⟨file, v, -, hread, hlists⟩ := h.operations
  exact hlists.isJson (isReadable_of_readInput hread).isJson

theorem takeOperations_eq : ∃ file, (nameOfFile .ops "" settings.ops).result = .ok file ∧
    (takeOperations around file).result = .ok ops := by
  obtain ⟨file, v, hfile, hread, hlists⟩ := h.operations
  exact ⟨file, hfile, takeOperations_eq_ok_iff.mpr ⟨v, hread, hlists⟩⟩

/-- The operations are carried out, and then the switch for required fields is set, if that is asked for. -/
theorem result_runTask : (runTask around ⟨.edit, settings⟩).result = (do
    let edited ← (applyOperations (Editor.ofObject root) 0 ops).result
    let switched ← (applyRequire edited settings.require).result
    return switched.document) := by
  obtain ⟨file, hfile, hinput⟩ := h.understood.input
  obtain ⟨opsFile, hopsFile, hops⟩ := h.takeOperations_eq
  have hedit : (runEdit around .edit settings none file).result = (do
      let edited ← (applyOperations (Editor.ofObject root) 0 ops).result
      let switched ← (applyRequire edited settings.require).result
      return switched.document) := by
    rw [runEdit, Run.result_bind, hinput, ok_bind]
    dsimp only
    rw [if_neg (by simp [Value.isObject])]
    simp only [Run.result_bind, Run.result_orStop, Editor.new_object, Except.mapError, ok_bind,
      hopsFile, hops]
    rfl
  rw [← hedit, runTask, Run.result_bind, h.understood.config, ok_bind, Run.result_bind, hfile, ok_bind]

/-- If all operations succeed, the switch decides how the run ends. -/
theorem ending_of_ran {last : Editor}
    (ran : Ran (Editor.ofObject root) ops last) :
    (run around words).ending = match (applyRequire last settings.require).result with
      | .ok switched => .text none (outputText settings.minify switched.document)
      | .error ending => ending := by
  rw [h.understood.ending_run, h.result_runTask, applyOperations_of_ran ran, ok_bind, h.noFile]
  cases (applyRequire last settings.require).result <;> rfl

/-- If an operation fails, the first that does decides how the run ends. -/
theorem ending_of_failsFirst {before : List Value} {middle : Editor} {op : Value} {fault : Fault}
    (first : FailsFirst (Editor.ofObject root) ops before middle op fault) :
    (run around words).ending = operationEnding before.length op fault := by
  rw [h.understood.ending_run, h.result_runTask, applyOperations_of_failsFirst first]
  rfl

end AsksEdit

/-! ### How it ends -/

/-- An edit that takes a value for an object although it is none: with an operation that is reached, or with
the switch for required fields. -/
inductive MeetsStray (editor : Editor) (require : Option Bool) (ops : List Value) : Prop where
  | operation {before after : List Value} {op : Value} {middle : Editor}
      {operation : Operation} (among : ops = before ++ op :: after)
      (ran : Ran editor before middle) (described : Operation.ofValue op = .ok operation)
      (stray : TakesStray middle.document operation) : MeetsStray editor require ops
  | switch {last : Editor} (asked : require.isSome = true)
      (ran : Ran editor ops last) (stray : last.document.isObject = false) :
      MeetsStray editor require ops

/-- The document that is put out, from the one after all operations. -/
def finalDocument (require : Option Bool) (doc : Value) : Value :=
  require.elim doc fun required => Schema.switchRequired required doc

theorem exists_of_applyRequire {editor : Editor} {require : Option Bool}
    (h : require.isSome = true → editor.document.isObject = true) :
    ∃ switched, (applyRequire editor require).result = .ok switched ∧
      switched.document = finalDocument require editor.document := by
  cases require with
  | none => exact ⟨editor, rfl, rfl⟩
  | some required =>
      obtain ⟨ms, hms⟩ := Value.isObject_iff.mp (h rfl)
      obtain ⟨hreply, hdocument⟩ := Editor.perform_setAllRequired hms (.bool required)
      refine ⟨_, ?_, hdocument⟩
      rw [applyRequire, ofOutcome, hreply]

theorem applyRequire_of_stray {editor : Editor} {require : Option Bool}
    (asked : require.isSome = true) (stray : editor.document.isObject = false) :
    (applyRequire editor require).result = .error (.breakdown (.fault .wrongShape)) := by
  obtain ⟨required, rfl⟩ := Option.isSome_iff_exists.mp asked
  rw [applyRequire, ofOutcome, Editor.reply_perform_eq_wrongShape_iff.mpr (.switch stray)]
  rfl

namespace AsksEdit

variable {around : Surroundings} {words : List String} {settings : Settings} {root : Members}
  {ops : List Value} (h : AsksEdit around words settings root ops)

include h

/-- An edit that meets a stray value breaks off. -/
theorem ending_of_meetsStray (stray : MeetsStray (Editor.ofObject root) settings.require ops) :
    (run around words).ending = .breakdown (.fault .wrongShape) := by
  cases stray with
  | @operation before after op middle operation among ran described stray =>
      have fails : (middle.apply op).reply = .error .wrongShape := by
        rw [Editor.apply_eq, described]
        exact Editor.reply_perform_eq_wrongShape_iff.mpr stray
      exact h.ending_of_failsFirst ⟨⟨after, among⟩, ran, fails⟩
  | switch asked ran stray => rw [h.ending_of_ran ran, applyRequire_of_stray asked stray]

/-- An edit that meets no stray value puts out its document, or its first failing operation is reported. -/
theorem ending_of_not_meetsStray
    (noStray : ¬ MeetsStray (Editor.ofObject root) settings.require ops) :
    (∃ last, Ran (Editor.ofObject root) ops last ∧ (run around words).ending =
      .text none (outputText settings.minify (finalDocument settings.require last.document))) ∨
      ∃ before middle op fault, FailsFirst (Editor.ofObject root) ops before middle op fault ∧
        (run around words).ending =
          .complaint (.operationFailed before.length (operationName op) fault) := by
  rcases Editor.ran_cases ops (Editor.ofObject root) with ⟨last, ran⟩ |
    ⟨before, middle, op, fault, first⟩
  · have hobject : settings.require.isSome = true → last.document.isObject = true := fun asked =>
      Bool.of_not_eq_false fun stray => noStray (.switch asked ran stray)
    obtain ⟨switched, hswitched, hdocument⟩ := exists_of_applyRequire hobject
    refine .inl ⟨last, ran, ?_⟩
    rw [h.ending_of_ran ran, hswitched, ← hdocument]
  · refine .inr ⟨before, middle, op, fault, first, ?_⟩
    obtain ⟨⟨after, among⟩, ran, fails⟩ := id first
    have hop : op ∈ ops := by simp [among]
    have hreported : isReported fault = true :=
      Editor.reports_apply (h.isObject op hop) (h.isJson op hop)
        (fun operation described stray => noStray (.operation among ran described stray)) fault fails
    rw [h.ending_of_failsFirst first, operationEnding, if_pos hreported]

end AsksEdit

/-- An edit of an object ends in one of three ways. All operations succeed and the document is printed, or
the first that fails is reported, or the edit meets a stray value and breaks off, and it does the last if and
only if there is such a value. Whichever it is, the folder is what it was. -/
theorem runIn_edit {folder : Folder} {stdin : Option String} {words : List String}
    {settings : Settings} {root : Members} {ops : List Value}
    (h : AsksEdit ⟨stdin, folder.read⟩ words settings root ops) :
    (¬ MeetsStray (Editor.ofObject root) settings.require ops →
      (∃ last, Ran (Editor.ofObject root) ops last ∧ runIn folder stdin words =
        ⟨0, outputText settings.minify (finalDocument settings.require last.document),
          joinLines (run ⟨stdin, folder.read⟩ words).lines, folder, none⟩) ∨
      ∃ before middle op fault, FailsFirst (Editor.ofObject root) ops before middle op fault ∧
        runIn folder stdin words = ⟨2, "", joinLines (run ⟨stdin, folder.read⟩ words).lines ++
          (Complaint.operationFailed before.length (operationName op) fault).line ++ "\n", folder, none⟩) ∧
    (MeetsStray (Editor.ofObject root) settings.require ops →
      runIn folder stdin words =
        ⟨1, "", joinLines (run ⟨stdin, folder.read⟩ words).lines, folder, some (.fault .wrongShape)⟩) := by
  refine ⟨fun noStray => ?_, fun stray => ?_⟩
  · rcases h.ending_of_not_meetsStray noStray with ⟨last, ran, hending⟩ |
      ⟨before, middle, op, fault, first, hending⟩
    · exact .inl ⟨last, ran, by rw [runIn, Report.result, hending]⟩
    · exact .inr ⟨before, middle, op, fault, first, by rw [runIn, Report.result, hending]⟩
  · rw [runIn, Report.result, h.ending_of_meetsStray stray]

/-- An object node that has no fields and requires none. -/
def noFields : Members :=
  [(.str "type", .str "object"), (.str "properties", .object []), (.str "required", .array [])]

def noFieldsText : String := "\x7b\"type\":\"object\",\"properties\":\x7b\x7d,\"required\":[]\x7d"

theorem readInputText_noFieldsText : readInputText noFieldsText = .ok (.object noFields) :=
  readInputText_of_read (by decide +kernel) (by decide +kernel)

theorem pairsHalves_noFieldsText : Json.PairsHalves noFieldsText.toList :=
  Json.pairsHalves_of_not_mem (by decide +kernel)

def editWords : List String := ["edit", "--ops", "ops.json"]

def opsFolder (text : String) : Folder := ⟨[("ops.json", text.toUTF8)]⟩

theorem read_opsFolder (text : String) : (opsFolder text).read "ops.json" = .ok text.toUTF8 := by
  have hparts : Folder.parts "ops.json" = ["ops.json"] := by decide +kernel
  have hsize : "ops.json".utf8ByteSize = 8 := by decide +kernel
  have hfind : (opsFolder text).find "ops.json" = .ok (.file "ops.json") := by
    simp [Folder.find, hparts, hsize, Folder.follow, Folder.entryAt, Folder.hasDirectory,
      Folder.isAbove, opsFolder, Folder.content?, Folder.nameOf]
  rw [Folder.read, hfind]
  rfl

/-- The object node without fields is edited with an operation that is read from a file. -/
theorem asksEdit_noFields {text : String} {op : Members} (hread : readInputText text = .ok (.object op))
    (pairs : Json.PairsHalves text.toList) :
    AsksEdit ⟨some noFieldsText, (opsFolder text).read⟩ editWords
      { Settings.initial with ops := .named "ops.json" } noFields [.object op] := by
  refine ⟨⟨rfl, rfl, rfl, _, rfl, ?_⟩, ⟨_, .object op, rfl, ?_, .one op⟩, rfl, ?_, ?_⟩
  · simp only [takeInput, readInputText_noFieldsText]
    rfl
  · dsimp only
    rw [read_opsFolder, readInput_toUTF8, hread]
  · rintro file hfile held hheld
    cases hfile
    cases hheld
    exact pairsHalves_noFieldsText
  · rintro file hfile held hheld
    cases hfile
    have hutf8 : String.fromUTF8? text.toUTF8 = some text := dif_pos text.isValidUTF8
    have htext : fileText? ⟨some noFieldsText, (opsFolder text).read⟩ "ops.json" = some text := by
      simp only [fileText?, read_opsFolder, Except.toOption, Option.bind_some, hutf8]
    cases htext.symm.trans hheld
    exact pairs

def removal : Members := [(.str "op", .str "delete_field"), (.str "path", .str "a")]

def removalText : String := "\x7b\"op\":\"delete_field\",\"path\":\"a\"\x7d"

theorem asksEdit_removal : AsksEdit ⟨some noFieldsText, (opsFolder removalText).read⟩ editWords
    { Settings.initial with ops := .named "ops.json" } noFields [.object removal] :=
  asksEdit_noFields (readInputText_of_read (by decide +kernel) (by decide +kernel))
    (Json.pairsHalves_of_not_mem (by decide +kernel))

def retyping : Members :=
  [(.str "op", .str "set_type"), (.str "path", .str "required"), (.str "new_type", .str "string")]

def retypingText : String :=
  "\x7b\"op\":\"set_type\",\"path\":\"required\",\"new_type\":\"string\"\x7d"

theorem asksEdit_retyping : AsksEdit ⟨some noFieldsText, (opsFolder retypingText).read⟩ editWords
    { Settings.initial with ops := .named "ops.json" } noFields [.object retyping] :=
  asksEdit_noFields (readInputText_of_read (by decide +kernel) (by decide +kernel))
    (Json.pairsHalves_of_not_mem (by decide +kernel))

theorem not_meetsStray_removal : ¬ MeetsStray (Editor.ofObject noFields) none [.object removal] := by
  intro h
  cases h with
  | @operation before after op middle operation among _ described stray =>
      have hop : op ∈ [Value.object removal] := by simp [among]
      obtain rfl := List.mem_singleton.mp hop
      have hremoval : Operation.ofValue (.object removal) =
          .ok (.deleteField (.array [.str "a"]) (.bool true)) := rfl
      rw [hremoval] at described
      cases described
      cases stray
  | switch asked _ _ => simp at asked

theorem meetsStray_retyping : MeetsStray (Editor.ofObject noFields) none [.object retyping] := by
  have described : Operation.ofValue (.object retyping) =
      .ok (.setType (.array [.str "required"]) (.str "string")) := rfl
  exact .operation (List.nil_append _).symm (.nil _) described (.retype rfl rfl rfl)

/-- The removal of a field that is not there is reported, and a type for the list of required names breaks
the edit off. -/
theorem runIn_edit_noFields :
    (runIn (opsFolder removalText) (some noFieldsText) editWords).exit = 2 ∧
      (runIn (opsFolder retypingText) (some noFieldsText) editWords).exit = 1 := by
  constructor
  · rcases (runIn_edit asksEdit_removal).1 not_meetsStray_removal with
      ⟨last, ran, -⟩ | ⟨before, middle, op, fault, -, hrun⟩
    · cases ran with
      | cons succeeds _ =>
          have fails : (Editor.apply (Editor.ofObject noFields) (.object removal)).reply =
              .error (.pathNotFound [.str "a"] 0) := rfl
          rw [fails] at succeeds
          cases succeeds
    · rw [hrun]
  · rw [(runIn_edit asksEdit_retyping).2 meetsStray_retyping]

/-- An edit of an object, with one object as its operations, that breaks off. -/
theorem breakdown_retyping :
    AsksEdit ⟨some noFieldsText, (opsFolder retypingText).read⟩ editWords
        { Settings.initial with ops := .named "ops.json" } noFields [.object retyping] ∧
      (runIn (opsFolder retypingText) (some noFieldsText) editWords).exit = 1 ∧
      (runIn (opsFolder retypingText) (some noFieldsText) editWords).breakdown =
        some (.fault .wrongShape) := by
  have hending := asksEdit_retyping.ending_of_meetsStray meetsStray_retyping
  refine ⟨asksEdit_retyping, ?_, ?_⟩
  · rw [runIn, Report.result, hending]
  · rw [runIn, Report.result, hending]

end Command

end SchemaForge
