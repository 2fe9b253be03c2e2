import SchemaForge.Proofs.Command.Edit

/-!
What a run leaves behind. A run that does not end well prints nothing and leaves the folder as it was. One
that does has put out one text, on standard output or as the content of one file; for a task that edits, it is
the document that an editor of the input comes to by the same operations and the same switch for required
fields.
-/

namespace SchemaForge

namespace Command

/-! ### The document of an edit -/

/-- The document of an editor of a value, after all operations in turn and after the switch for required
fields, if that is asked for. -/
def editedDocument (root : Value) (ops : List Value) (require : Option Bool) : Except Fault Value := do
  let editor ← Editor.new (some root)
  let edited := editor.applyEach ops
  let _ ← edited.reply
  match require with
  | none => return edited.editor.document
  | some required =>
      let switched := edited.editor.perform (.setAllRequired (.bool required))
      let _ ← switched.reply
      return switched.editor.document

theorem result_ofOutcome_eq_ok_iff {ending : Fault → Ending} {outcome : Editor.Outcome} {editor : Editor} :
    (ofOutcome ending outcome).result = .ok editor ↔
      ∃ reply, outcome.reply = .ok reply ∧ outcome.editor = editor := by
  rw [ofOutcome]
  cases outcome.reply <;> simp

/-- A command line carries out operations as an editor does. -/
theorem applyOperations_eq_ok_iff (ops : List Value) :
    ∀ {editor last : Editor} {index : Nat}, (applyOperations editor index ops).result = .ok last ↔
      ∃ replies, (editor.applyEach ops).reply = .ok replies ∧ (editor.applyEach ops).editor = last := by
  induction ops with
  | nil =>
      intro editor last index
      simp [applyOperations, Editor.applyEach, Run.pure]
  | cons op ops ih =>
      intro editor last index
      rw [applyOperations, Run.result_bind, bind_eq_ok_iff, Editor.applyEach]
      cases hreply : (editor.apply op).reply with
      | error fault => simp [result_ofOutcome_eq_ok_iff, hreply]
      | ok reply =>
          simp only [result_ofOutcome_eq_ok_iff, hreply, Except.ok.injEq, exists_eq_left', ih]
          cases ((editor.apply op).editor.applyEach ops).reply <;> simp [Except.map]

/-- The stages of an edit, taken together, come to the document of an editor. -/
theorem editedDocument_eq_ok_iff {root : Members} {ops : List Value} {require : Option Bool} {doc : Value} :
    editedDocument (.object root) ops require = .ok doc ↔ ∃ edited switched,
      (applyOperations (Editor.ofObject root) 0 ops).result = .ok edited ∧
        (applyRequire edited require).result = .ok switched ∧ switched.document = doc := by
  simp only [editedDocument, Editor.new_object, ok_bind, applyOperations_eq_ok_iff]
  cases require with
  | none => simp [bind_eq_ok_iff, applyRequire, Run.pure]
  | some required =>
      simp [bind_eq_ok_iff, applyRequire, result_ofOutcome_eq_ok_iff]

/-! ### The stages of a run -/

/-- The operations that a task takes: an edit takes those of the file that is named for them, and a
normalization none. -/
inductive TakesOperations (around : Surroundings) (settings : Settings) : Task → List Value → Prop where
  | normalize : TakesOperations around settings .normalize []
  | edit {file : String} {v : Value} {ops : List Value}
      (named : (nameOfFile .ops "" settings.ops).result = .ok file)
      (read : readInput (around.openFile file) = .ok v) (lists : ListsOperations v ops) :
      TakesOperations around settings .edit ops

/-- What an edit does when it has an editor and the operations. -/
def carryOut (editor : Editor) (ops : List Value) (require : Option Bool) (config : Option Config) :
    Run Value := do
  let edited ← applyOperations editor 0 ops
  let switched ← applyRequire edited require
  checkFormats config switched.document
  return switched.document

/-- It comes to the document of an editor, if the formats in that can be checked. -/
theorem carryOut_eq_ok_iff {root : Members} {ops : List Value} {require : Option Bool}
    {config : Option Config} {doc : Value} :
    (carryOut (Editor.ofObject root) ops require config).result = .ok doc ↔
      editedDocument (.object root) ops require = .ok doc ∧ (checkFormats config doc).result = .ok () := by
  simp only [carryOut, Run.result_bind, bind_eq_ok_iff, Run.result_return, Except.ok.injEq,
    editedDocument_eq_ok_iff]
  constructor
  · rintro ⟨edited, hedited, switched, hswitched, _, hcheck, rfl⟩
    exact ⟨⟨edited, switched, hedited, hswitched, rfl⟩, hcheck⟩
  · rintro ⟨⟨edited, switched, hedited, hswitched, rfl⟩, hcheck⟩
    exact ⟨edited, hedited, switched, hswitched, (), hcheck, rfl⟩

/-- What an edit or a normalization needs for coming to a document. -/
theorem runEdit_eq_ok_iff {around : Surroundings} {task : Task} {settings : Settings}
    {config : Option Config} {file : String} {doc : Value} (edits : task ≠ .infer) :
    (runEdit around task settings config file).result = .ok doc ↔ ∃ root ops,
      (takeInput around task file).result = .ok (.object root) ∧ TakesOperations around settings task ops ∧
        editedDocument (.object root) ops settings.require = .ok doc ∧
        (checkFormats config doc).result = .ok () := by
  rw [runEdit, Run.result_bind, bind_eq_ok_iff]
  constructor
  · rintro ⟨v, hinput, h⟩
    -- Any other input is complained about.
    obtain ⟨root, rfl⟩ : ∃ root, v = .object root := by
      cases v with
      | object root => exact ⟨root, rfl⟩
      | _ => cases h
    dsimp only at h
    rw [if_neg (by simp [Value.isObject]), Run.result_bind, Run.result_orStop, Editor.new_object] at h
    cases task with
    | infer => exact absurd rfl edits
    | normalize => exact ⟨root, [], hinput, .normalize, carryOut_eq_ok_iff.mp h⟩
    | edit =>
        dsimp only [Except.mapError, ok_bind] at h
        rw [Run.result_bind] at h
        obtain ⟨opsFile, hnamed, h⟩ := bind_eq_ok_iff.mp h
        rw [Run.result_bind] at h
        obtain ⟨ops, hops, h⟩ := bind_eq_ok_iff.mp h
        obtain ⟨w, hread, hlists⟩ := takeOperations_eq_ok_iff.mp hops
        exact ⟨root, ops, hinput, .edit hnamed hread hlists, carryOut_eq_ok_iff.mp h⟩
  · rintro ⟨root, ops, hinput, hops, h⟩
    refine ⟨_, hinput, ?_⟩
    dsimp only
    rw [if_neg (by simp [Value.isObject]), Run.result_bind, Run.result_orStop, Editor.new_object]
    cases hops with
    | normalize => exact carryOut_eq_ok_iff.mpr h
    | edit named read lists =>
        have hops := takeOperations_eq_ok_iff.mpr ⟨_, read, lists⟩
        dsimp only [Except.mapError, ok_bind]
        rw [Run.result_bind, named, ok_bind, Run.result_bind, hops, ok_bind]
        exact carryOut_eq_ok_iff.mpr h

/-! ### Stages that stop the run -/

/-- An ending with a complaint or a breakdown. -/
inductive Ending.IsFailure : Ending → Prop where
  | complaint (c : Complaint) : IsFailure (.complaint c)
  | breakdown (b : Breakdown) : IsFailure (.breakdown b)

theorem isFailure_inputEnding (label file source : String) (fault : InputFault) :
    (inputEnding label file source fault).IsFailure := by
  unfold inputEnding
  split <;> constructor

theorem isFailure_operationEnding (index : Nat) (op : Value) (fault : Fault) :
    (operationEnding index op fault).IsFailure := by
  unfold operationEnding
  split <;> constructor

/-- A run that ends before it comes to anything only with a failure. -/
def FailsOnly {α : Type} (run : Run α) : Prop := ∀ ending, run.result = .error ending → ending.IsFailure

section Rules

variable {ε α β : Type}

theorem failsOnly_ok {run : Run α} {a : α} (h : run.result = .ok a) : FailsOnly run := by
  intro ending hending
  rw [h] at hending
  cases hending

theorem failsOnly_stop {ending : Ending} (h : ending.IsFailure) :
    FailsOnly (.stop ending : Run α) := by
  rintro _ ⟨⟩
  exact h

theorem failsOnly_orStop {ending : ε → Ending} (h : ∀ fault, (ending fault).IsFailure)
    (result : Except ε α) : FailsOnly (.orStop ending result) := by
  cases result with
  | error fault => exact failsOnly_stop (h fault)
  | ok a => exact failsOnly_ok rfl

theorem failsOnly_ofOutcome {ending : Fault → Ending} (h : ∀ fault, (ending fault).IsFailure)
    (outcome : Editor.Outcome) : FailsOnly (ofOutcome ending outcome) := by
  intro _ hending
  rw [ofOutcome] at hending
  cases hreply : outcome.reply with
  | error fault =>
      rw [hreply] at hending
      cases hending
      exact h fault
  | ok reply =>
      rw [hreply] at hending
      cases hending

theorem FailsOnly.bind {run : Run α} {next : α → Run β} (h : FailsOnly run)
    (hnext : ∀ a, run.result = .ok a → FailsOnly (next a)) : FailsOnly (run >>= next) := by
  intro ending hending
  rw [Run.result_bind] at hending
  cases hrun : run.result with
  | error first =>
      rw [hrun] at hending
      cases hending
      exact h _ hrun
  | ok a =>
      rw [hrun] at hending
      exact hnext a hrun _ hending

end Rules

theorem failsOnly_nameOfFile (flag : Flag) (usual : String) (choice : FileChoice) :
    FailsOnly (nameOfFile flag usual choice) := by
  cases choice with
  | nameless => exact failsOnly_stop (.breakdown _)
  | _ => exact failsOnly_ok rfl

theorem failsOnly_takeInput (around : Surroundings) (task : Task) (file : String) :
    FailsOnly (takeInput around task file) := by
  unfold takeInput
  split
  · split <;> exact failsOnly_orStop (isFailure_inputEnding _ _ _) _
  · exact failsOnly_orStop (isFailure_inputEnding _ _ _) _

theorem failsOnly_takeConfig (around : Surroundings) (file : Option String) :
    FailsOnly (takeConfig around file) := by
  unfold takeConfig
  split
  · exact failsOnly_ok rfl
  · split
    · exact failsOnly_ok rfl
    · split
      · exact (failsOnly_ok (Run.result_tell _)).bind fun _ _ => failsOnly_ok rfl
      · exact failsOnly_stop (.complaint _)
      · exact failsOnly_stop (isFailure_inputEnding _ _ _ _)

theorem failsOnly_takeOperations (around : Surroundings) (file : String) :
    FailsOnly (takeOperations around file) := by
  refine (failsOnly_orStop (isFailure_inputEnding _ _ _) _).bind fun v _ => ?_
  dsimp only
  split
  · split
    · exact failsOnly_ok rfl
    · exact failsOnly_stop (.complaint _)
  · exact failsOnly_stop (.complaint _)

theorem failsOnly_applyOperations (ops : List Value) :
    ∀ (editor : Editor) (index : Nat), FailsOnly (applyOperations editor index ops) := by
  induction ops with
  | nil => exact fun _ _ => failsOnly_ok rfl
  | cons op ops ih =>
      exact fun _ _ => (failsOnly_ofOutcome (isFailure_operationEnding _ _) _).bind fun _ _ => ih _ _

theorem failsOnly_applyRequire (editor : Editor) (require : Option Bool) :
    FailsOnly (applyRequire editor require) := by
  cases require with
  | none => exact failsOnly_ok rfl
  | some required => exact failsOnly_ofOutcome (fun fault => .breakdown (.fault fault)) _

theorem failsOnly_checkFormats (config : Option Config) (doc : Value) :
    FailsOnly (checkFormats config doc) := by
  unfold checkFormats
  split
  · exact failsOnly_ok rfl
  · split
    · exact failsOnly_stop (.breakdown _)
    · exact failsOnly_ok rfl

theorem failsOnly_runInfer (around : Surroundings) (settings : Settings) (file : String) :
    FailsOnly (runInfer around settings file) := by
  refine (failsOnly_takeInput _ _ _).bind fun data _ => ?_
  refine (failsOnly_orStop (fun fault => .breakdown (.fault fault)) _).bind fun schema _ => ?_
  exact (failsOnly_ok (Run.result_tell _)).bind fun _ _ => failsOnly_ok rfl

theorem failsOnly_carryOut (editor : Editor) (ops : List Value) (require : Option Bool)
    (config : Option Config) : FailsOnly (carryOut editor ops require config) := by
  refine (failsOnly_applyOperations ops editor 0).bind fun edited _ => ?_
  refine (failsOnly_applyRequire edited require).bind fun switched _ => ?_
  exact (failsOnly_checkFormats config _).bind fun _ _ => failsOnly_ok rfl

theorem failsOnly_runEdit (around : Surroundings) (task : Task) (settings : Settings)
    (config : Option Config) (file : String) : FailsOnly (runEdit around task settings config file) := by
  refine (failsOnly_takeInput _ _ _).bind fun doc _ => ?_
  dsimp only
  split
  · exact (failsOnly_stop (.complaint _)).bind nofun
  · refine (failsOnly_orStop (fun fault => .breakdown (.fault fault)) _).bind fun editor _ => ?_
    cases task with
    | edit =>
        exact (failsOnly_nameOfFile _ _ _).bind fun _ _ => (failsOnly_takeOperations _ _).bind fun ops _ =>
          failsOnly_carryOut editor ops _ _
    | _ => exact failsOnly_carryOut editor [] _ _

/-- A task ends with no text of its own accord: it comes to a value, or it fails. -/
theorem failsOnly_runTask (around : Surroundings) (invocation : Invocation) :
    FailsOnly (runTask around invocation) := by
  refine (failsOnly_takeConfig _ _).bind fun config _ => (failsOnly_nameOfFile _ _ _).bind fun file _ => ?_
  split
  · exact failsOnly_runInfer _ _ _
  · exact failsOnly_runEdit _ _ _ _ _

/-! ### Runs that finish -/

/-- An edit or a normalization that goes through up to its document: the command line is understood, the
input is an object, an editor of it comes to the document by the operations, and the formats in the document
can be checked. -/
def Finishes (around : Surroundings) (words : List String) (task : Task) (settings : Settings)
    (doc : Value) : Prop :=
  ∃ config root ops, Understood around words task settings config (.object root) ∧
    TakesOperations around settings task ops ∧
    editedDocument (.object root) ops settings.require = .ok doc ∧ (checkFormats config doc).result = .ok ()

/-- A command line that is understood leads to the text of a value or, if the task comes to none, to a failure: no
stage puts anything out. -/
theorem ending_run_of_reads (around : Surroundings) {words : List String} {invocation : Invocation}
    (reads : readArguments words = .ok invocation) :
    (∃ v, invocation.settings.logLevel.isSome = true ∧ (runTask around invocation).result = .ok v ∧
      (run around words).ending =
        .text (outputFile invocation.settings) (outputText invocation.settings.minify v)) ∨
    (∀ v, ¬ (invocation.settings.logLevel.isSome = true ∧ (runTask around invocation).result = .ok v)) ∧
      (run around words).ending.IsFailure := by
  simp only [run, reads]
  cases invocation.settings.logLevel with
  | none => exact .inr ⟨by simp, .breakdown _⟩
  | some level =>
      cases hdone : (runTask around invocation).result with
      | error ending => exact .inr ⟨by simp, failsOnly_runTask _ _ _ hdone⟩
      | ok v => exact .inl ⟨v, rfl, rfl, rfl⟩

/-- There is a text to put out only when the whole task has come to a value. Until then a run shows its help, or it
fails. -/
theorem ending_run_cases (around : Surroundings) (words : List String) :
    (run around words).ending = .help ∨ (run around words).ending.IsFailure ∨
      ∃ invocation v, readArguments words = .ok invocation ∧ (runTask around invocation).result = .ok v ∧
        (run around words).ending =
          .text (outputFile invocation.settings) (outputText invocation.settings.minify v) := by
  cases hread : readArguments words with
  | error halt =>
      simp only [run, hread]
      cases halt with
      | help => exact .inl rfl
      | usage task fault => exact .inr (.inl (.complaint _))
  | ok invocation =>
      rcases ending_run_of_reads around hread with ⟨v, -, hdone, htext⟩ | ⟨-, fails⟩
      · exact .inr (.inr ⟨invocation, v, rfl, hdone, htext⟩)
      · exact .inr (.inl fails)

section Task

variable {around : Surroundings} {words : List String} {task : Task} {settings : Settings}

theorem finishes_iff (reads : readArguments words = .ok ⟨task, settings⟩) (edits : task ≠ .infer)
    {doc : Value} : Finishes around words task settings doc ↔
      settings.logLevel.isSome = true ∧ (runTask around ⟨task, settings⟩).result = .ok doc := by
  have htask : (runTask around ⟨task, settings⟩).result =
      (takeConfig around settings.config).result >>= fun config =>
        (nameOfFile .input task.defaultInput settings.input).result >>= fun file =>
          (runEdit around task settings config file).result := by
    cases task with
    | infer => exact absurd rfl edits
    | _ => simp only [runTask, Run.result_bind]
  rw [htask]
  simp only [bind_eq_ok_iff, runEdit_eq_ok_iff edits]
  constructor
  · rintro ⟨config, root, ops, ⟨-, level, hconfig, file, hfile, hinput⟩, hops, hdoc⟩
    exact ⟨level, config, hconfig, file, hfile, root, ops, hinput, hops, hdoc⟩
  · rintro ⟨level, config, hconfig, file, hfile, root, ops, hinput, hops, hdoc⟩
    exact ⟨config, root, ops, ⟨reads, level, hconfig, file, hfile, hinput⟩, hops, hdoc⟩

variable (around) in
/-- A run either goes through up to its document, and puts it out, or it ends with a failure. -/
theorem ending_cases (reads : readArguments words = .ok ⟨task, settings⟩) (edits : task ≠ .infer) :
    (∃ doc, Finishes around words task settings doc ∧
      (run around words).ending = .text (outputFile settings) (outputText settings.minify doc)) ∨
    (∀ doc, ¬ Finishes around words task settings doc) ∧ (run around words).ending.IsFailure := by
  simp only [finishes_iff reads edits]
  rcases ending_run_of_reads around reads with ⟨doc, hlevel, hdone, htext⟩ | ⟨none, fails⟩
  · exact .inl ⟨doc, ⟨hlevel, hdone⟩, htext⟩
  · exact .inr ⟨none, fails⟩

end Task

/-! ### What is put out -/

namespace Folder

variable {folder : Folder} {name : String}

theorem lookup_cons_eq {key other : String} {content : ByteArray} {files : List (String × ByteArray)} :
    ((key, content) :: files).lookup other = if other = key then some content else files.lookup other := by
  by_cases h : other = key
  · simp [h]
  · simp [List.lookup_cons, beq_false_of_ne h, h]

theorem lookup_map_put (bytes : ByteArray) (files : List (String × ByteArray)) (other : String) :
    (files.map fun f => if f.1 = name then (name, bytes) else f).lookup other =
      if other = name then (files.lookup name).map fun _ => bytes else files.lookup other := by
  induction files with
  | nil => simp
  | cons f files ih =>
      obtain ⟨key, content⟩ := f
      by_cases hkey : key = name
      · subst hkey
        by_cases hother : other = key <;> simp [lookup_cons_eq, ih, hother]
      · by_cases hother : other = name
        · subst hother
          simp [lookup_cons_eq, ih, hkey, Ne.symm hkey]
        · simp [lookup_cons_eq, ih, hkey, hother]

/-- The file that is written has the new content, and no other file has changed. -/
theorem content?_put (bytes : ByteArray) (other : String) :
    (folder.put name bytes).content? other = if other = name then some bytes else folder.content? other := by
  unfold put
  split
  · next present =>
      obtain ⟨before, hbefore⟩ := Option.isSome_iff_exists.mp present
      rw [content?] at hbefore
      simp [content?, lookup_map_put, hbefore]
  · next absent =>
      rw [content?, Bool.not_eq_true, Option.isSome_eq_false_iff, Option.isNone_iff_eq_none] at absent
      by_cases hother : other = name
      · simp [content?, List.lookup_append, hother, absent]
      · simp [content?, List.lookup_append, lookup_cons_eq, hother]

/-- A path that leads to a place for a file, whether there is one or not. -/
inductive LeadsTo (folder : Folder) (path name : String) : Prop where
  | file (found : folder.find path = .ok (.file name))
  | absent (found : folder.find path = .ok (.absent name))

theorem write_eq_ok_iff {path text : String} {after : Folder} : folder.write path text = .ok after ↔
    ∃ name, folder.LeadsTo path name ∧ folder.put name text.toUTF8 = after := by
  unfold write
  constructor
  · intro h
    split at h
    · cases h
    · cases h
    · next name found =>
        cases h
        exact ⟨name, .file found, rfl⟩
    · next name found =>
        cases h
        exact ⟨name, .absent found, rfl⟩
  · rintro ⟨name, found | found, rfl⟩ <;> rw [found]

end Folder

/-- What a run leaves behind that puts out one text and does nothing else. The text is printed and the folder
stays what it was, or the text is what the named file holds afterwards, nothing is printed, and all other
files stay what they were. -/
inductive PutOut (folder : Folder) (text : String) : Option String → Result → Prop where
  | printed {result : Result} (stdout : result.stdout = text) (same : result.folder = folder) :
      PutOut folder text none result
  | written {file name : String} {result : Result} (place : folder.LeadsTo file name)
      (stdout : result.stdout = "") (content : result.folder.content? name = some text.toUTF8)
      (others : ∀ other, other ≠ name → result.folder.content? other = folder.content? other) :
      PutOut folder text (some file) result

namespace Report

variable {report : Report} {folder : Folder}

/-- A run that fails prints nothing and leaves the folder as it was. -/
theorem result_of_isFailure (h : report.ending.IsFailure) :
    (report.result folder).exit ≠ 0 ∧ (report.result folder).stdout = "" ∧
      (report.result folder).folder = folder := by
  unfold result
  cases hending : report.ending with
  | complaint c => simp
  | breakdown b => simp
  | _ => rw [hending] at h; cases h

/-- So does one whose text cannot be put out. -/
theorem nothing_of_text {output : Option String} {text : String} (h : report.ending = .text output text)
    (exit : (report.result folder).exit ≠ 0) :
    (report.result folder).stdout = "" ∧ (report.result folder).folder = folder := by
  cases output with
  | none => simp [result, h] at exit
  | some file =>
      cases hwrite : folder.write file text with
      | ok after => simp [result, h, hwrite] at exit
      | error obstacle => simp [result, h, hwrite]

/-- A run that ends with a text ends well exactly if the text could be put out. -/
theorem exit_eq_zero_iff {output : Option String} {text : String} (h : report.ending = .text output text) :
    (report.result folder).exit = 0 ↔ PutOut folder text output (report.result folder) := by
  cases output with
  | none =>
      have hresult : report.result folder = ⟨0, text, joinLines report.lines, folder, none⟩ := by
        simp only [result, h]
      rw [hresult]
      exact ⟨fun _ => .printed rfl rfl, fun _ => rfl⟩
  | some file =>
      cases hwrite : folder.write file text with
      | ok after =>
          have hresult : report.result folder = ⟨0, "", joinLines report.lines, after, none⟩ := by
            simp only [result, h, hwrite]
          obtain ⟨name, place, rfl⟩ := Folder.write_eq_ok_iff.mp hwrite
          rw [hresult]
          refine ⟨fun _ => .written place rfl ?_ fun other hother => ?_, fun _ => rfl⟩
          · rw [Folder.content?_put, if_pos rfl]
          · rw [Folder.content?_put, if_neg hother]
      | error obstacle =>
          have hresult : report.result folder =
              ⟨1, "", joinLines report.lines, folder, some (.obstacle obstacle)⟩ := by
            simp only [result, h, hwrite]
          refine ⟨fun exit => by simp [hresult] at exit, fun put => ?_⟩
          -- Where there is a place for a file, writing to it does not fail.
          cases put with
          | written place _ _ _ =>
              rw [Folder.write_eq_ok_iff.mpr ⟨_, place, rfl⟩] at hwrite
              cases hwrite

end Report

/-- A command line does everything or nothing. A run that does not end well prints nothing and leaves the
folder as it was. An edit or a normalization ends well exactly if it goes through up to its document and that
is what it puts out, once and with no other effect, in the file that is named or else on standard output. The
texts that are read pair their halves. -/
theorem runIn_all_or_nothing (folder : Folder) (stdin : Option String) (words : List String) :
    ((runIn folder stdin words).exit ≠ 0 →
      (runIn folder stdin words).stdout = "" ∧ (runIn folder stdin words).folder = folder) ∧
    ∀ task settings, readArguments words = .ok ⟨task, settings⟩ → task ≠ .infer →
      ((runIn folder stdin words).exit = 0 ↔
        ∃ doc, Finishes ⟨stdin, folder.read⟩ words task settings doc ∧
          PutOut folder (outputText settings.minify doc) (outputFile settings) (runIn folder stdin words)) := by
  refine ⟨fun exit => ?_, fun task settings reads edits => ?_⟩
  · rcases ending_run_cases ⟨stdin, folder.read⟩ words with hhelp | fails | ⟨_, _, -, -, htext⟩
    · simp [runIn, Report.result, hhelp] at exit
    · exact (Report.result_of_isFailure fails).2
    · exact Report.nothing_of_text htext exit
  rcases ending_cases ⟨stdin, folder.read⟩ reads edits with ⟨doc, finishes, hending⟩ | ⟨none, fails⟩
  · refine ⟨fun exit => ⟨doc, finishes, (Report.exit_eq_zero_iff hending).mp exit⟩, ?_⟩
    rintro ⟨other, hother, put⟩
    -- A task comes to one document at most.
    have hdoc := ((finishes_iff reads edits).mp finishes).2
    rw [((finishes_iff reads edits).mp hother).2, Except.ok.injEq] at hdoc
    rw [hdoc] at put
    exact (Report.exit_eq_zero_iff hending).mpr put
  · refine ⟨fun exit => absurd exit (Report.result_of_isFailure fails).1, ?_⟩
    rintro ⟨doc, finishes, -⟩
    exact absurd finishes (none doc)

def normalizeWords : List String := ["normalize", "-o", "out.json"]

def normalizeSettings : Settings := { Settings.initial with output := some "out.json" }

theorem readArguments_normalizeWords : readArguments normalizeWords = .ok ⟨.normalize, normalizeSettings⟩ :=
  rfl

theorem finishes_noFields (folder : Folder) :
    Finishes ⟨some noFieldsText, folder.read⟩ normalizeWords .normalize normalizeSettings
      (Schema.normalize (.object noFields)) := by
  refine ⟨none, noFields, [], ⟨rfl, rfl, rfl, _, rfl, ?_⟩, .normalize, rfl, rfl⟩
  simp only [takeInput, readInputText_noFieldsText]
  rfl

theorem leadsTo_out : Folder.LeadsTo ⟨[]⟩ "out.json" "out.json" := by
  have hparts : Folder.parts "out.json" = ["out.json"] := by decide +kernel
  have hsize : "out.json".utf8ByteSize = 8 := by decide +kernel
  refine .absent ?_
  simp [Folder.find, hparts, hsize, Folder.follow, Folder.entryAt, Folder.hasDirectory, Folder.isAbove,
    Folder.content?, Folder.nameOf]

theorem exit_normalize_noFields : (runIn ⟨[]⟩ (some noFieldsText) normalizeWords).exit = 0 := by
  rcases ending_cases ⟨some noFieldsText, Folder.read ⟨[]⟩⟩ readArguments_normalizeWords (by decide)
    with ⟨doc, -, hending⟩ | ⟨none, -⟩
  · have houtput : outputFile normalizeSettings = some "out.json" := by decide
    obtain ⟨after, hwrite⟩ : ∃ after, Folder.write ⟨[]⟩ "out.json"
        (outputText normalizeSettings.minify doc) = .ok after :=
      ⟨_, Folder.write_eq_ok_iff.mpr ⟨_, leadsTo_out, rfl⟩⟩
    simp only [runIn, Report.result, hending, houtput, hwrite]
  · exact absurd (finishes_noFields ⟨[]⟩) (none _)

/-- A normalization writes its document into a new file, and an edit that breaks off leaves no trace. -/
theorem runIn_all_or_nothing_noFields :
    (∃ doc,
      Finishes ⟨some noFieldsText, Folder.read ⟨[]⟩⟩ normalizeWords .normalize normalizeSettings doc ∧
      PutOut ⟨[]⟩ (outputText false doc) (some "out.json")
        (runIn ⟨[]⟩ (some noFieldsText) normalizeWords)) ∧
    (runIn (opsFolder retypingText) (some noFieldsText) editWords).stdout = "" ∧
    (runIn (opsFolder retypingText) (some noFieldsText) editWords).folder = opsFolder retypingText := by
  constructor
  · exact ((runIn_all_or_nothing ⟨[]⟩ (some noFieldsText) normalizeWords).2 .normalize normalizeSettings
      readArguments_normalizeWords (by decide)).mp exit_normalize_noFields
  · have hending := asksEdit_retyping.ending_of_meetsStray meetsStray_retyping
    refine (runIn_all_or_nothing _ _ _).1 ?_
    rw [runIn, Report.result, hending]
    decide

end Command

end SchemaForge
