import SchemaForge.Command.Run
import SchemaForge.Proofs.Answers

/-!
What a run comes to. The notices of a run have no influence on it, so a run that is put together of others
comes to what their results come to, taken as answers. A command line that is understood, and that finds its
configuration and its input, ends the way its task ends.
-/

namespace SchemaForge.Command

namespace Run

variable {α β : Type}

@[simp] theorem result_return (a : α) : (Pure.pure a : Run α).result = .ok a := rfl

@[simp] theorem result_tell (notice : Notice) : (tell notice).result = .ok () := rfl

@[simp] theorem result_orStop {ε : Type} (ending : ε → Ending) (result : Except ε α) :
    (orStop ending result).result = result.mapError ending := rfl

theorem result_orStop_eq_ok_iff {ε : Type} {ending : ε → Ending} {result : Except ε α} {a : α} :
    (orStop ending result).result = .ok a ↔ result = .ok a := by
  cases result with
  | error fault => exact ⟨nofun, nofun⟩
  | ok b =>
      constructor <;> rintro ⟨⟩
      · rfl
      · rfl

@[simp] theorem result_bind (run : Run α) (next : α → Run β) :
    (run >>= next).result = run.result >>= fun a => (next a).result := by
  change (Run.bind run next).result = _
  rw [Run.bind]
  cases run.result <;> rfl

end Run

/-- A command line that is understood, with the settings that it makes, the configuration that it asks for
and the value that its input denotes. -/
structure Understood (around : Surroundings) (words : List String) (task : Task) (settings : Settings)
    (config : Option Config) (v : Value) : Prop where
  reads : readArguments words = .ok ⟨task, settings⟩
  level : settings.logLevel.isSome = true
  config : (takeConfig around settings.config).result = .ok config
  input : ∃ file, (nameOfFile .input task.defaultInput settings.input).result = .ok file ∧
    (takeInput around task file).result = .ok v

namespace Understood

variable {around : Surroundings} {words : List String} {settings : Settings} {config : Option Config}
  {v : Value}

/-- The run ends the way its task ends. -/
theorem ending_run {task : Task} (h : Understood around words task settings config v) :
    (run around words).ending =
      match (runTask around ⟨task, settings⟩).result with
      | .ok v => .text (outputFile settings) (outputText settings.minify v)
      | .error ending => ending := by
  obtain ⟨level, hlevel⟩ := Option.isSome_iff_exists.mp h.level
  rw [run, h.reads]
  cases hdone : (runTask around ⟨task, settings⟩).result with
  | ok v => simp only [hlevel, hdone]
  | error ending => simp only [hlevel, hdone]

/-- The schema of a sample is put out. -/
theorem ending_infer (h : Understood around words .infer settings config v) {schema : Value}
    (hschema : Inference.inferSchema (Sample.ofValue v) settings.title = .ok schema) :
    (run around words).ending = .text (outputFile settings) (outputText settings.minify schema) := by
  obtain ⟨file, hfile, hinput⟩ := h.input
  have hdone : (runTask around ⟨.infer, settings⟩).result = .ok schema := by
    simp only [runTask, Run.result_bind, h.config, hfile, ok_bind, runInfer, hinput,
      Run.result_orStop, hschema, Run.result_tell, Run.result_return]
    rfl
  rw [h.ending_run, hdone]

end Understood

end SchemaForge.Command
