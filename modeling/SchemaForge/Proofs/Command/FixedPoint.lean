import SchemaForge.Proofs.Command.Output
import SchemaForge.Proofs.Json.Controls
import SchemaForge.Proofs.Schema.Switched

/-!
Normalizing what was normalized. What a command line prints is read as the value that was printed, and a
document that a normalization has come to is one that it leaves alone, with its keys in their order and with
the switch for required fields set once more. So the printed text, given to the same command line, is printed
again.
-/

namespace SchemaForge.Command

open Schema (normalize switchRequired)

/-! ### Reading what was printed -/

theorem unifyLineEnds_of_not_mem {cs : List Char} (h : '\r' ∉ cs) : unifyLineEnds cs = cs := by
  induction cs with
  | nil => rfl
  | cons c cs ih =>
      rw [List.mem_cons, not_or] at h
      rw [unifyLineEnds, ih h.2]
      exact fun heq => absurd heq.symm h.1

theorem isPlain_outputStyle (minify : Bool) :
    (if minify then Json.Style.minified else .indented [' ', ' ']).IsPlain := by
  cases minify with
  | true => exact Json.isPlain_minified
  | false => exact Json.isPlain_indented (by simp [Json.isSpace])

/-- No line of what is printed ends with a carriage return, so that lines are read as they are. -/
theorem not_mem_outputText (minify : Bool) {v : Value} (h : v.IsJson) :
    '\r' ∉ (outputText minify v).toList := by
  rw [outputText, String.toList_append, Json.write, String.toList_ofList, List.mem_append, not_or]
  refine ⟨fun hmem => ?_, by decide⟩
  cases minify with
  | true => exact absurd (Json.noControls_writeValue_minified h 0 _ hmem) (by decide)
  | false =>
      exact absurd (Json.eq_lineFeed_of_mem_writeValue_indented h (by decide) hmem (by decide)) (by decide)

/-- What is printed denotes the value that it was made of. -/
theorem readInputText_outputText (minify : Bool) {v : Value} (h : v.IsReadable) :
    readInputText (outputText minify v) = .ok v := by
  have hlines := unifyLineEnds_of_not_mem (not_mem_outputText minify h.isJson)
  have hread : Json.read (outputText minify v) = .ok v :=
    Json.read_write_append (isPlain_outputStyle minify) h (List.forall_mem_singleton.mpr rfl)
  exact readInputText_of_read hlines hread

/-! ### Documents that were normalized -/

theorem isObject_finalDocument (require : Option Bool) {v : Value} (h : v.isObject = true) :
    (finalDocument require v).isObject = true := by
  cases require with
  | none => exact h
  | some required =>
      obtain ⟨ms, rfl⟩ := Value.isObject_iff.mp h
      obtain ⟨ns, hns, -⟩ := Schema.rewrites_switchRequired required ms
      exact Value.isObject_iff.mpr ⟨ns, hns⟩

theorem isReadable_finalDocument (require : Option Bool) {v : Value} (h : v.IsReadable) :
    (finalDocument require v).IsReadable := by
  cases require with
  | none => exact h
  | some required => exact Schema.hereditary_switchRequired Value.hereditary_isReadable h required

/-- A normalization comes to the normal form of its input, with the switch set as it is asked for. -/
theorem editedDocument_nil (root : Members) (require : Option Bool) :
    editedDocument (.object root) [] require =
      .ok (finalDocument require (normalize (.object root))) := by
  have hobject : (Editor.ofObject root).document.isObject = true := Schema.isObject_normalize _
  obtain ⟨switched, hswitched, hdocument⟩ :=
    @exists_of_applyRequire (Editor.ofObject root) require fun _ => hobject
  exact editedDocument_eq_ok_iff.mpr ⟨_, switched, rfl, hswitched, hdocument⟩

/-- The document that a normalization comes to is one that it leaves alone. -/
theorem finalDocument_normalize (require : Option Bool) (v : Value) :
    finalDocument require (normalize (finalDocument require (normalize v))) =
      finalDocument require (normalize v) := by
  cases require with
  | none => exact Schema.isNormal_normalize v
  | some required =>
      calc switchRequired required (normalize (switchRequired required (normalize v)))
          = switchRequired required (switchRequired required (normalize v)) := by
            rw [Schema.normalize_switchRequired_normalize]
        _ = switchRequired required (normalize v) := Schema.switchRequired_switchRequired (.inr rfl) _

/-! ### Running again -/

/-- The surroundings give a text to a task as its input: on standard input if the usual file is asked for, or
in the file if it is another one or nothing is on standard input. -/
inductive GivesInput (around : Surroundings) (task : Task) (settings : Settings) (text : String) :
    Prop where
  | stdin (usual : (nameOfFile .input task.defaultInput settings.input).result = .ok task.defaultInput)
      (piped : around.stdin = some text) : GivesInput around task settings text
  | file {file : String} (named : (nameOfFile .input task.defaultInput settings.input).result = .ok file)
      (opened : around.stdin = none ∨ file ≠ task.defaultInput)
      (content : around.openFile file = .ok text.toUTF8) : GivesInput around task settings text

theorem GivesInput.exists_takeInput {around : Surroundings} {task : Task} {settings : Settings}
    {text : String} (h : GivesInput around task settings text) {v : Value}
    (hread : readInputText text = .ok v) :
    ∃ file, (nameOfFile .input task.defaultInput settings.input).result = .ok file ∧
      (takeInput around task file).result = .ok v := by
  cases h with
  | stdin usual piped =>
      refine ⟨_, usual, ?_⟩
      simp only [takeInput, piped, if_pos]
      exact Run.result_orStop_eq_ok_iff.mpr hread
  | @file file named opened content =>
      have hcontent : readInput (around.openFile file) = .ok v := by
        rw [content, readInput_toUTF8, hread]
      refine ⟨file, named, ?_⟩
      unfold takeInput
      split
      · next text piped =>
          have hother : file ≠ task.defaultInput := opened.resolve_left (by simp [piped])
          rw [if_neg hother]
          exact Run.result_orStop_eq_ok_iff.mpr hcontent
      · exact Run.result_orStop_eq_ok_iff.mpr hcontent

section Printed

variable {folder : Folder} {stdin : Option String} {words : List String} {task : Task}
  {settings : Settings} {doc : Value}

/-- A run that names no file for the output prints its document. -/
theorem runIn_of_finishes (finishes : Finishes ⟨stdin, folder.read⟩ words task settings doc)
    (edits : task ≠ .infer) (printed : outputFile settings = none) :
    (runIn folder stdin words).exit = 0 ∧
      (runIn folder stdin words).stdout = outputText settings.minify doc := by
  obtain ⟨config, root, ops, understood, -⟩ := id finishes
  have hdone := ((finishes_iff understood.reads edits).mp finishes).2
  have hending := understood.ending_run
  rw [hdone, printed] at hending
  rw [runIn, Report.result, hending]
  exact ⟨rfl, rfl⟩

/-- It ends well only if it has gone through up to its document. -/
theorem exists_finishes_of_exit (reads : readArguments words = .ok ⟨task, settings⟩)
    (edits : task ≠ .infer) (exit : (runIn folder stdin words).exit = 0) :
    ∃ doc, Finishes ⟨stdin, folder.read⟩ words task settings doc := by
  rcases ending_cases ⟨stdin, folder.read⟩ reads edits with ⟨doc, finishes, -⟩ | ⟨-, fails⟩
  · exact ⟨doc, finishes⟩
  · exact absurd exit (Report.result_of_isFailure fails).1

/-- What a normalization without a configuration comes to. -/
theorem finishes_normalize_iff (noConfig : settings.config = none) {around : Surroundings} :
    Finishes around words .normalize settings doc ↔
      ∃ root, Understood around words .normalize settings none (.object root) ∧
        finalDocument settings.require (normalize (.object root)) = doc := by
  constructor
  · rintro ⟨config, root, ops, understood, hops, hdoc, -⟩
    cases hops
    have hconfig := understood.config
    rw [noConfig] at hconfig
    cases hconfig
    rw [editedDocument_nil, Except.ok.injEq] at hdoc
    exact ⟨root, understood, hdoc⟩
  · rintro ⟨root, understood, rfl⟩
    exact ⟨none, root, [], understood, .normalize, editedDocument_nil root _, rfl⟩

end Printed

/-- Normalization is a fixed point on what it prints. If a normalization without a configuration ends well and
prints its document, then the same command line, with the printed text as its input, ends well and prints the
same text, whatever else the folder holds then. The texts that are read pair their halves. -/
theorem runIn_normalize_printed {folder later : Folder} {stdin next : Option String} {words : List String}
    {settings : Settings} (reads : readArguments words = .ok ⟨.normalize, settings⟩)
    (noConfig : settings.config = none) (printed : outputFile settings = none)
    (exit : (runIn folder stdin words).exit = 0)
    (input : GivesInput ⟨next, later.read⟩ .normalize settings (runIn folder stdin words).stdout) :
    (runIn later next words).exit = 0 ∧
      (runIn later next words).stdout = (runIn folder stdin words).stdout := by
  obtain ⟨doc, finishes⟩ := exists_finishes_of_exit reads (by decide) exit
  obtain ⟨root, understood, hdoc⟩ := (finishes_normalize_iff noConfig).mp finishes
  have hstdout := (runIn_of_finishes finishes (by decide) printed).2
  have hreadable : doc.IsReadable := by
    obtain ⟨file, -, htaken⟩ := understood.input
    rw [← hdoc]
    exact isReadable_finalDocument _ (Schema.hereditary_normalize Value.hereditary_isReadable
      (isReadable_of_takeInput htaken))
  obtain ⟨ms, hms⟩ : ∃ ms, doc = .object ms := by
    rw [← Value.isObject_iff, ← hdoc]
    exact isObject_finalDocument _ (Schema.isObject_normalize _)
  have hfixed : finalDocument settings.require (normalize (.object ms)) = doc := by
    rw [← hms, ← hdoc]
    exact finalDocument_normalize _ _
  rw [hstdout] at input ⊢
  have htaken := input.exists_takeInput (readInputText_outputText settings.minify hreadable)
  rw [hms] at htaken
  have again : Understood ⟨next, later.read⟩ words .normalize settings none (.object ms) :=
    ⟨reads, understood.level, by rw [noConfig]; rfl, htaken⟩
  exact runIn_of_finishes ((finishes_normalize_iff noConfig).mpr ⟨ms, again, hfixed⟩) (by decide) printed

def requireNoneWords : List String := ["normalize", "--require-none", "--minify"]

def requireNoneSettings : Settings := { Settings.initial with require := some false, minify := true }

theorem readArguments_requireNoneWords :
    readArguments requireNoneWords = .ok ⟨.normalize, requireNoneSettings⟩ :=
  rfl

def requireNoneText : String := "\x7b\"type\":\"object\",\"properties\":\x7b\x7d\x7d\n"

theorem runIn_requireNone_noFields :
    (runIn ⟨[]⟩ (some noFieldsText) requireNoneWords).exit = 0 ∧
      (runIn ⟨[]⟩ (some noFieldsText) requireNoneWords).stdout = requireNoneText := by
  have finishes : Finishes ⟨some noFieldsText, Folder.read ⟨[]⟩⟩ requireNoneWords .normalize
      requireNoneSettings (finalDocument (some false) (normalize (.object noFields))) := by
    refine (finishes_normalize_iff rfl).mpr ⟨noFields, ⟨rfl, rfl, rfl, _, rfl, ?_⟩, rfl⟩
    simp only [takeInput, readInputText_noFieldsText]
    rfl
  have hprinted : outputFile requireNoneSettings = none := rfl
  have htext : outputText true (finalDocument (some false) (normalize (.object noFields))) =
      requireNoneText := by
    decide +kernel
  obtain ⟨hexit, hstdout⟩ := runIn_of_finishes finishes (by decide) hprinted
  exact ⟨hexit, hstdout.trans htext⟩

/-- The object node without fields loses its empty list of required names, and does not change any more. -/
theorem runIn_normalize_printed_noFields :
    (runIn ⟨[]⟩ (some noFieldsText) requireNoneWords).stdout = requireNoneText ∧
      (runIn ⟨[]⟩ (some requireNoneText) requireNoneWords).exit = 0 ∧
      (runIn ⟨[]⟩ (some requireNoneText) requireNoneWords).stdout = requireNoneText := by
  obtain ⟨hexit, hstdout⟩ := runIn_requireNone_noFields
  have input : GivesInput ⟨some requireNoneText, Folder.read ⟨[]⟩⟩ .normalize requireNoneSettings
      (runIn ⟨[]⟩ (some noFieldsText) requireNoneWords).stdout := .stdin rfl (by rw [hstdout])
  have hagain := runIn_normalize_printed readArguments_requireNoneWords rfl rfl hexit input
  rw [hstdout] at hagain
  exact ⟨hstdout, hagain⟩

end SchemaForge.Command
