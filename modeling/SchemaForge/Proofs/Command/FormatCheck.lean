import SchemaForge.Proofs.Command.FixedPoint
import SchemaForge.Proofs.Schema.UnlistedFormats

/-!
What a normalization with a configuration warns of. Of all its stages only the check of the formats warns, and it
goes over the document last, when that is in normal form. It warns of every format off the list outside variants, once
for each node and in the order of the document; and it breaks the run off if it meets properties that it cannot go
through.
-/

namespace SchemaForge.Command

open Schema (Visited Browsable Walkable unlistedFormat unlistedFormats plain nodes)

/-! ### Warnings -/

namespace Run

variable {α β : Type}

/-- The notices of a run that are warnings, in the order in which they are told. -/
def warnings (run : Run α) : List Notice := run.notices.filter fun n => Level.warning.rank ≤ n.level.rank

/-- The warnings of two stages, if the first one comes to something. -/
theorem warnings_bind {run : Run α} {a : α} (h : run.result = .ok a) (next : α → Run β) :
    (run >>= next).warnings = run.warnings ++ (next a).warnings := by
  change (Run.bind run next).warnings = _
  simp only [warnings, Run.bind, h, List.filter_append]

/-- A stage that says what the run has come to adds no warning. -/
theorem warnings_bind_return (run : Run α) (b : β) : (run >>= fun _ => Pure.pure b).warnings = run.warnings := by
  change (Run.bind run fun _ => Run.pure b).warnings = _
  unfold warnings Run.bind
  cases run.result with
  | ok a => exact congrArg _ (List.append_nil _)
  | error ending => rfl

end Run

theorem notice_of_loadConfig {file : String} {content : Except Obstacle ByteArray} {config : Config} {notice : Notice}
    (h : loadConfig file content = .ok (config, notice)) :
    notice = .configLoaded config.formats.length config.mocks.length file := by
  unfold loadConfig at h
  split at h
  · cases h
  · cases h
  · split at h
    · cases h
    · cases h
      rfl

theorem warnings_takeConfig (around : Surroundings) (file : Option String) :
    (takeConfig around file).warnings = [] := by
  unfold takeConfig
  split
  · rfl
  · split
    · rfl
    · split
      · next loaded =>
          rw [notice_of_loadConfig loaded]
          rfl
      · rfl
      · rfl

theorem warnings_nameOfFile (flag : Flag) (usual : String) (choice : FileChoice) :
    (nameOfFile flag usual choice).warnings = [] := by
  cases choice <;> rfl

theorem warnings_takeInput (around : Surroundings) (task : Task) (file : String) :
    (takeInput around task file).warnings = [] := by
  unfold takeInput
  split
  · split <;> rfl
  · rfl

theorem warnings_applyRequire (root : Members) (require : Option Bool) :
    (applyRequire (Editor.ofObject root) require).warnings = [] := by
  cases require with
  | none => rfl
  | some required =>
      obtain ⟨ms, hms⟩ := Value.isObject_iff.mp (Schema.isObject_normalize (.object root))
      have hnotices : ((Editor.ofObject root).perform (.setAllRequired (.bool required))).notices =
          [.switchingRequired (.bool required)] := by
        rw [Editor.ofObject, hms]
        rfl
      rw [Run.warnings, applyRequire, ofOutcome, hnotices]
      rfl

/-! ### The check -/

theorem warnings_unknownFormats {α : Type} (formats : List String) (result : Except Ending α) :
    (⟨formats.map .unknownFormat, result⟩ : Run α).warnings = formats.map .unknownFormat := by
  rw [Run.warnings, List.filter_eq_self]
  intro notice hnotice
  obtain ⟨format, -, rfl⟩ := List.mem_map.mp hnotice
  rfl

section Check

variable {config : Config} {doc : Value}

variable (config) in
theorem checkFormats_of_walkable (walkable : Walkable doc) : checkFormats (some config) doc =
    ⟨(unlistedFormats config.formatNames (plain (nodes false doc))).map .unknownFormat, .ok ()⟩ := by
  simp only [checkFormats, (Schema.told config.formatNames doc _).mpr ⟨walkable, rfl⟩, Schema.toldFormats]

variable (config) in
theorem checkFormats_of_not_walkable (stops : ¬ Walkable doc) :
    checkFormats (some config) doc = .stop (.breakdown (.fault .wrongShape)) := by
  simp only [checkFormats, Schema.unknownFormats_eq_error_iff.mpr ⟨rfl, stops⟩]

/-- The switch for required fields makes no difference to the check. -/
theorem checkFormats_finalDocument (config : Option Config) (require : Option Bool) (doc : Value) :
    checkFormats config (finalDocument require doc) = checkFormats config doc := by
  cases require with
  | none => rfl
  | some required => simp only [checkFormats, finalDocument, Option.elim, Schema.unknownFormats_switchRequired]

end Check

/-! ### The run -/

/-- Of the stages of a normalization the check alone has warnings, and it decides how the normalization ends. -/
theorem carryOut_nil (root : Members) (require : Option Bool) (config : Option Config) :
    (carryOut (Editor.ofObject root) [] require config).warnings =
        (checkFormats config (Schema.normalize (.object root))).warnings ∧
      (carryOut (Editor.ofObject root) [] require config).result =
        (checkFormats config (Schema.normalize (.object root))).result.map fun _ =>
          finalDocument require (Schema.normalize (.object root)) := by
  have hobject : (Editor.ofObject root).document.isObject = true := Schema.isObject_normalize _
  obtain ⟨switched, hswitched, hdocument⟩ :=
    @exists_of_applyRequire (Editor.ofObject root) require fun _ => hobject
  have hcheck : checkFormats config switched.document = checkFormats config (Schema.normalize (.object root)) := by
    rw [hdocument]
    exact checkFormats_finalDocument config require _
  have hnone : (applyOperations (Editor.ofObject root) 0 []).result = .ok (Editor.ofObject root) := rfl
  constructor
  · rw [carryOut, Run.warnings_bind hnone, Run.warnings_bind hswitched, warnings_applyRequire,
      Run.warnings_bind_return, hcheck]
    rfl
  · rw [carryOut, Run.result_bind, hnone, ok_bind, Run.result_bind, hswitched, ok_bind, Run.result_bind, hcheck,
      hdocument]
    cases (checkFormats config (Schema.normalize (.object root))).result <;> rfl

section Normalization

variable {around : Surroundings} {words : List String} {settings : Settings} {config : Option Config} {root : Members}
  (h : Understood around words .normalize settings config (.object root))

include h

theorem Understood.runTask_normalize :
    (runTask around ⟨.normalize, settings⟩).warnings =
        (checkFormats config (Schema.normalize (.object root))).warnings ∧
      (runTask around ⟨.normalize, settings⟩).result =
        (checkFormats config (Schema.normalize (.object root))).result.map fun _ =>
          finalDocument settings.require (Schema.normalize (.object root)) := by
  obtain ⟨file, hfile, hinput⟩ := h.input
  obtain ⟨hwarnings, hresult⟩ := carryOut_nil root settings.require config
  constructor
  · rw [runTask, Run.warnings_bind h.config, warnings_takeConfig, Run.warnings_bind hfile, warnings_nameOfFile]
    dsimp only
    rw [runEdit, Run.warnings_bind hinput, warnings_takeInput]
    exact hwarnings
  · rw [runTask, Run.result_bind, h.config, ok_bind, Run.result_bind, hfile, ok_bind]
    dsimp only
    rw [runEdit, Run.result_bind, hinput, ok_bind]
    exact hresult

theorem Understood.lines_of_level {level : Level} (hlevel : settings.logLevel = some level) :
    (run around words).lines = linesFrom level (runTask around ⟨.normalize, settings⟩).notices := by
  rw [run, h.reads]
  simp only [hlevel]

end Normalization

/-- What a normalization with a configuration warns of. If it meets no properties outside variants that it cannot go
through, it ends well, and it warns of every format off the list that a node outside variants names, once for each
node and in the order of the document; these are the formats off the list of all nodes exactly if no variant, and
nothing below one, names any. If it meets such properties, it breaks off before it has warned of anything. The
warnings are what is told at the usual level. The schema and the configuration are read from texts that pair their
halves. -/
theorem warnings_of_normalize {around : Surroundings} {words : List String} {settings : Settings} {config : Config}
    {root : Members} (h : Understood around words .normalize settings (some config) (.object root)) :
    let doc := Schema.normalize (.object root)
    let warnings := (runTask around ⟨.normalize, settings⟩).warnings
    ((∀ ms, Visited false doc false ms → Browsable ms) →
        (run around words).ending =
            .text (outputFile settings) (outputText settings.minify (finalDocument settings.require doc)) ∧
          warnings = (unlistedFormats config.formatNames (plain (nodes false doc))).map .unknownFormat ∧
          (warnings = (unlistedFormats config.formatNames (nodes false doc)).map .unknownFormat ↔
            ∀ ms, Visited false doc true ms → unlistedFormat config.formatNames ms = none)) ∧
      ((∃ ms, Visited false doc false ms ∧ ¬ Browsable ms) →
        (run around words).ending = .breakdown (.fault .wrongShape) ∧ warnings = []) ∧
      (settings.logLevel = some .warning → (run around words).lines = warnings.map Notice.line) := by
  intro doc warnings
  obtain ⟨hwarnings, hresult⟩ := h.runTask_normalize
  change warnings = _ at hwarnings
  have hending := h.ending_run
  rw [hresult] at hending
  refine ⟨fun browsable => ?_, fun ⟨ms, reached, stops⟩ => ?_, h.lines_of_level⟩
  · have hcheck := checkFormats_of_walkable config (Schema.walkable_iff.mpr browsable)
    rw [hcheck, warnings_unknownFormats] at hwarnings
    rw [hcheck] at hending
    refine ⟨hending, hwarnings, ?_⟩
    rw [hwarnings, List.map_inj_right fun _ _ => Notice.unknownFormat.inj, Schema.unlistedFormats_plain_eq_iff]
  · have hcheck := checkFormats_of_not_walkable config fun walkable =>
      stops (Schema.walkable_iff.mp walkable ms reached)
    rw [hcheck] at hwarnings hending
    exact ⟨hending, hwarnings⟩

/-! ### Runs with the usual formats -/

def configWords : List String := ["--config", "c.json", "normalize"]

def configSettings : Settings := { Settings.initial with config := some "c.json" }

def usualConfig : Config := ⟨Config.defaultFormats, []⟩

/-- A text on standard input, and an empty object in every file. -/
def piped (text : String) : Surroundings := ⟨some text, fun _ => .ok "\x7b\x7d".toUTF8⟩

theorem readInputText_emptyObject : readInputText "\x7b\x7d" = .ok (.object []) :=
  readInputText_of_read (by decide +kernel) (by decide +kernel)

theorem understood_piped {text : String} {root : Members} (hread : readInputText text = .ok (.object root)) :
    Understood (piped text) configWords .normalize configSettings (some usualConfig) (.object root) := by
  refine ⟨rfl, rfl, ?_, _, rfl, ?_⟩
  · have hconfig : readInput ((piped text).openFile "c.json") = .ok (.object []) := by
      rw [piped, readInput_toUTF8, readInputText_emptyObject]
    simp only [takeConfig, configSettings, loadConfig, hconfig]
    rfl
  · simp only [takeInput, piped, hread]
    rfl

def formatted (format : String) : Members := [(.str "type", .str "string"), (.str "format", .str format)]

def repeated : Members :=
  [(.str "type", .str "object"), (.str "format", .str "node"), (.str "properties", .object
    [(.str "a", .object [(.str "items", .object (formatted "uuid"))]), (.str "b", .object (formatted "uuid"))])]

def repeatedText : String :=
  "\x7b\"type\":\"object\",\"format\":\"node\",\"properties\":\x7b" ++
    "\"a\":\x7b\"items\":\x7b\"type\":\"string\",\"format\":\"uuid\"\x7d\x7d," ++
    "\"b\":\x7b\"type\":\"string\",\"format\":\"uuid\"\x7d\x7d\x7d"

theorem readInputText_repeatedText : readInputText repeatedText = .ok (.object repeated) :=
  readInputText_of_read (by decide +kernel) (by decide +kernel)

theorem unknownFormats_repeated :
    Schema.unknownFormats usualConfig.formatNames (.object repeated) = .ok ["node", "uuid", "uuid"] := by
  rfl

/-- The format of the root is told first, then that of the two fields, once for each. -/
theorem warnings_of_normalize_repeated :
    (run (piped repeatedText) configWords).ending = .text none (outputText false (.object repeated)) ∧
      (run (piped repeatedText) configWords).lines =
        ["node", "uuid", "uuid"].map fun format => (Notice.unknownFormat format).line := by
  have hnormal : Schema.normalize (.object repeated) = .object repeated := by decide +kernel
  obtain ⟨walkable, htold⟩ := (Schema.told _ _ _).mp unknownFormats_repeated
  obtain ⟨through, -, hlines⟩ := warnings_of_normalize (understood_piped readInputText_repeatedText)
  rw [hnormal] at through
  obtain ⟨hending, hwarnings, -⟩ := through (Schema.walkable_iff.mp walkable)
  refine ⟨hending, ?_⟩
  rw [hlines rfl, hwarnings, ← Schema.toldFormats, htold, List.map_map]
  rfl

def variantRows : Members :=
  [(.str "type", .str "array"), (.str "items", .object [(.str "oneOf", .array [.object (formatted "uuid")])])]

def variantRowsText : String :=
  "\x7b\"type\":\"array\",\"items\":\x7b\"oneOf\":[" ++
    "\x7b\"type\":\"string\",\"format\":\"uuid\"\x7d]\x7d\x7d"

theorem readInputText_variantRowsText : readInputText variantRowsText = .ok (.object variantRows) :=
  readInputText_of_read (by decide +kernel) (by decide +kernel)

def listedProperties : Members := [(.str "type", .str "string"), (.str "properties", .array [.int 1])]

def listedPropertiesText : String := "\x7b\"type\":\"string\",\"properties\":[1]\x7d"

theorem readInputText_listedPropertiesText :
    readInputText listedPropertiesText = .ok (.object listedProperties) :=
  readInputText_of_read (by decide +kernel) (by decide +kernel)

/-- A format off the list that is named in a variant is not told, and a list in the place of properties breaks the run
off although normalization leaves it there. -/
theorem normalize_passes_variant_and_breaks_off :
    (Understood (piped variantRowsText) configWords .normalize configSettings (some usualConfig)
        (.object variantRows) ∧
      Visited false (Schema.normalize (.object variantRows)) true (formatted "uuid") ∧
      unlistedFormat usualConfig.formatNames (formatted "uuid") = some "uuid" ∧
      (run (piped variantRowsText) configWords).ending = .text none (outputText false (.object variantRows)) ∧
      (runTask (piped variantRowsText) ⟨.normalize, configSettings⟩).warnings = []) ∧
    Understood (piped listedPropertiesText) configWords .normalize configSettings (some usualConfig)
        (.object listedProperties) ∧
      Schema.normalize (.object listedProperties) = .object listedProperties ∧
      (run (piped listedPropertiesText) configWords).ending = .breakdown (.fault .wrongShape) := by
  have variant := understood_piped readInputText_variantRowsText
  have listed := understood_piped readInputText_listedPropertiesText
  have hvariant : Schema.normalize (.object variantRows) = .object variantRows := by decide +kernel
  have hlisted : Schema.normalize (.object listedProperties) = .object listedProperties := by decide +kernel
  obtain ⟨hwarnings, hresult⟩ := variant.runTask_normalize
  have hending := variant.ending_run
  have hbroken := listed.ending_run
  rw [hresult, hvariant] at hending
  rw [listed.runTask_normalize.2, hlisted] at hbroken
  rw [hvariant] at hwarnings ⊢
  exact ⟨⟨variant, ((Visited.root rfl).items rfl).variant rfl List.mem_cons_self, rfl, hending, hwarnings⟩, listed,
    hlisted, hbroken⟩

end SchemaForge.Command
