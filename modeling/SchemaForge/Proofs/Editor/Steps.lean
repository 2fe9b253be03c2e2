import SchemaForge.Proofs.Editor.Actions
import SchemaForge.Proofs.Editor.Ledgers

/-!
One step of an editor, and any number of them. What comes of an operation is what its draft gives, worked out on
the document and the tree view as they are; what was announced, called and told before has no influence on it and
stays. So what comes of several operations is put together from what comes of each, and what the drafts keep is
kept by runs.
-/

namespace SchemaForge

/-- The workspace after an outcome of its editor. -/
def Workspace.add (w : Workspace) (o : Editor.Outcome) : Workspace where
  editor := o.editor
  announced := w.announced ++ o.announced
  calls := w.calls ++ callsOf w.editor.listeners o.announced
  notices := w.notices ++ o.notices

namespace Editor

/-- What comes of an action that only adds to the workspace of its editor. -/
theorem outcome_of_run {editor : Editor} {action : Action Value} {o : Outcome}
    (h : action.run.run editor.workspace = (o.reply, editor.workspace.add o)) : editor.outcome action = o := by
  rw [outcome, h]
  rfl

/-! ### One operation -/

/-- What comes of an operation is what its draft gives. -/
theorem perform_eq (editor : Editor) (operation : Operation) :
    editor.perform operation =
      match (operation.draft editor.document editor.openNodes).run.run ⟨editor.nextField, []⟩ with
      | (.ok change, ledger) =>
          ⟨editor.make ledger.nextField change, change.document.toList, ledger.notices, .ok change.reply⟩
      | (.error fault, ledger) =>
          ⟨{ editor with nextField := ledger.nextField }, [], ledger.notices, .error fault⟩ := by
  have hrun := Action.performs_draft operation editor.document editor.openNodes editor.workspace rfl rfl
  simp only [Workspace.ledger, workspace] at hrun
  rw [perform, outcome, workspace, hrun]
  rcases (operation.draft editor.document editor.openNodes).run.run ⟨editor.nextField, []⟩ with
    ⟨fault | change, ledger⟩
  · rfl
  · rfl

/-- What comes of an operation: all of the change that its draft gives, or the fault that stopped it. -/
theorem perform_cases (editor : Editor) (operation : Operation) :
    (∃ change ledger,
      (operation.draft editor.document editor.openNodes).Yields ⟨editor.nextField, []⟩ change ledger ∧
        editor.perform operation = ⟨editor.make ledger.nextField change, change.document.toList,
          ledger.notices, .ok change.reply⟩) ∨
    ∃ fault ledger,
      (operation.draft editor.document editor.openNodes).run.run ⟨editor.nextField, []⟩ =
          (.error fault, ledger) ∧
        editor.perform operation = ⟨{ editor with nextField := ledger.nextField }, [],
          ledger.notices, .error fault⟩ := by
  rw [perform_eq]
  unfold Draft.Yields
  rcases (operation.draft editor.document editor.openNodes).run.run ⟨editor.nextField, []⟩ with
    ⟨fault | change, ledger⟩
  · exact .inr ⟨fault, ledger, rfl, rfl⟩
  · exact .inl ⟨change, ledger, rfl, rfl⟩

theorem perform_of_yields (editor : Editor) (operation : Operation) {change : Change} {ledger : Ledger}
    (h : (operation.draft editor.document editor.openNodes).Yields ⟨editor.nextField, []⟩ change ledger) :
    editor.perform operation = ⟨editor.make ledger.nextField change, change.document.toList,
      ledger.notices, .ok change.reply⟩ := by
  rw [perform_eq, h]

theorem perform_of_fault (editor : Editor) (operation : Operation) {fault : Fault} {ledger : Ledger}
    (h : (operation.draft editor.document editor.openNodes).run.run ⟨editor.nextField, []⟩ =
      (.error fault, ledger)) :
    editor.perform operation =
      ⟨{ editor with nextField := ledger.nextField }, [], ledger.notices, .error fault⟩ := by
  rw [perform_eq, h]

/-- An operation in a workspace adds what comes of it to what is there. -/
theorem run_action (operation : Operation) (w : Workspace) :
    operation.action.run.run w = ((w.editor.perform operation).reply, w.add (w.editor.perform operation)) := by
  obtain ⟨r, m, told, -, hrun⟩ :=
    Draft.advances_draft operation w.editor.document w.editor.openNodes w.editor.nextField
  rw [Action.performs_draft operation w.editor.document w.editor.openNodes w rfl rfl, perform_eq,
    Workspace.ledger, hrun, hrun]
  cases r with
  | error fault => simp [Workspace.add, Workspace.withLedger, Workspace.callsOf]
  | ok change => simp [Workspace.add, Workspace.take]

theorem listeners_perform (editor : Editor) (operation : Operation) :
    (editor.perform operation).editor.listeners = editor.listeners := by
  rcases perform_cases editor operation with ⟨change, ledger, -, heq⟩ | ⟨fault, ledger, -, heq⟩
  · rw [heq]
    rfl
  · rw [heq]

/-! ### Descriptions -/

/-- A description that describes no operation has no effect. -/
theorem apply_eq (editor : Editor) (description : Value) :
    editor.apply description =
      match Operation.ofValue description with
      | .ok operation => editor.perform operation
      | .error fault => ⟨editor, [], [], .error fault⟩ := by
  rw [apply, outcome, Action.apply, Action.run_bind]
  cases Operation.ofValue description <;> rfl

theorem run_apply (description : Value) (w : Workspace) :
    (Action.apply description).run.run w =
      ((w.editor.apply description).reply, w.add (w.editor.apply description)) := by
  rw [Action.apply, Action.run_bind, apply_eq]
  cases Operation.ofValue description with
  | error fault =>
      change (Except.error fault, w) = (Except.error fault, w.add ⟨w.editor, [], [], .error fault⟩)
      simp [Workspace.add, Workspace.callsOf]
  | ok operation => exact run_action operation w

theorem listeners_apply (editor : Editor) (description : Value) :
    (editor.apply description).editor.listeners = editor.listeners := by
  rw [apply_eq]
  split
  · exact listeners_perform editor _
  · rfl

/-! ### Several operations -/

/-- What comes of operations in turn, put together from what comes of each up to the first one that fails. -/
def applyEach (editor : Editor) : List Value → Outcome
  | [] => ⟨editor, [], [], .ok (.array [])⟩
  | d :: ds =>
      let first := editor.apply d
      match first.reply with
      | .error _ => first
      | .ok reply =>
          let rest := first.editor.applyEach ds
          ⟨rest.editor, first.announced ++ rest.announced, first.notices ++ rest.notices,
            rest.reply.map fun
              | .array replies => .array (reply :: replies)
              | v => v⟩

theorem exists_run_applyEach (ds : List Value) :
    ∀ w : Workspace, ∃ r, (Action.applyEach ds).run.run w = (r, w.add (w.editor.applyEach ds)) ∧
      (w.editor.applyEach ds).reply = r.map .array := by
  induction ds with
  | nil =>
      intro w
      refine ⟨.ok [], ?_, rfl⟩
      change (Except.ok [], w) = _
      simp [Workspace.add, Workspace.callsOf, applyEach]
  | cons d ds ih =>
      intro w
      rw [Action.applyEach, Action.run_bind, run_apply]
      cases hfirst : (w.editor.apply d).reply with
      | error fault => exact ⟨.error fault, by simp only [applyEach, hfirst], by simp only [applyEach, hfirst]; rfl⟩
      | ok reply =>
          obtain ⟨r, hrun, hreply⟩ := ih (w.add (w.editor.apply d))
          have hadd : (w.add (w.editor.apply d)).add ((w.editor.apply d).editor.applyEach ds) =
              w.add (w.editor.applyEach (d :: ds)) := by
            simp [Workspace.add, Workspace.callsOf, applyEach, hfirst, listeners_apply]
          refine ⟨r.map (reply :: ·), ?_, ?_⟩
          · dsimp only
            rw [Action.run_bind, hrun, ← hadd]
            cases r <;> rfl
          · simp only [applyEach, hfirst]
            change Except.map _ ((w.add (w.editor.apply d)).editor.applyEach ds).reply = _
            rw [hreply]
            cases r <;> rfl

theorem run_applyAll_of_eq {descriptions : Value} {w : Workspace} {o : Outcome}
    (h : o = match descriptions.elements with
      | .ok ds => w.editor.applyEach ds
      | .error fault => ⟨w.editor, [], [], .error fault⟩) :
    (Action.applyAll descriptions).run.run w = (o.reply, w.add o) := by
  subst h
  rw [Action.applyAll, Action.run_bind]
  cases descriptions.elements with
  | error fault =>
      change (Except.error fault, w) = (Except.error fault, w.add ⟨w.editor, [], [], .error fault⟩)
      simp [Workspace.add, Workspace.callsOf]
  | ok ds =>
      obtain ⟨r, hrun, hreply⟩ := exists_run_applyEach ds w
      change (Action.applyEach ds >>= fun replies => pure (Value.array replies)).run.run w = _
      rw [Action.run_bind, hrun, hreply]
      cases r <;> rfl

/-- A list of operations has the effect of its elements in turn, and what is no list has none. -/
theorem applyAll_eq (editor : Editor) (descriptions : Value) :
    editor.applyAll descriptions =
      match descriptions.elements with
      | .ok ds => editor.applyEach ds
      | .error fault => ⟨editor, [], [], .error fault⟩ :=
  outcome_of_run (run_applyAll_of_eq rfl)

theorem run_applyAll (descriptions : Value) (w : Workspace) :
    (Action.applyAll descriptions).run.run w =
      ((w.editor.applyAll descriptions).reply, w.add (w.editor.applyAll descriptions)) :=
  run_applyAll_of_eq (applyAll_eq w.editor descriptions)

/-! ### Documents -/

/-- A property of documents that drafts keep is kept by operations, whether they succeed or fail. -/
theorem document_perform {p : Value → Prop} {editor : Editor} {operation : Operation}
    (h : p editor.document)
    (hdraft : ∀ {s change t new},
      (operation.draft editor.document editor.openNodes).Yields s change t →
        change.document = some new → p new) :
    p (editor.perform operation).editor.document := by
  rcases perform_cases editor operation with ⟨change, ledger, hyields, heq⟩ | ⟨fault, ledger, -, heq⟩
  · rw [heq]
    simp only [make]
    cases hnew : change.document with
    | none => exact h
    | some new => exact hdraft hyields hnew
  · rwa [heq]

/-! ### Runs -/

/-- The editors that are reached by operations, whether they succeed or fail. `starts` says which documents
the first editor may be given, where it may also be given none, and `allowed` which operations may be
carried out on a document. -/
inductive ReachedBy (starts : Value → Prop) (allowed : Value → Operation → Prop) : Editor → Prop where
  | new {doc : Option Value} {editor : Editor} (isNew : Editor.new doc = .ok editor)
      (isStart : ∀ v, doc = some v → starts v) : ReachedBy starts allowed editor
  | perform {editor : Editor} {operation : Operation} (reached : ReachedBy starts allowed editor)
      (isAllowed : allowed editor.document operation) :
      ReachedBy starts allowed (editor.perform operation).editor

section ReachedBy

variable {starts : Value → Prop} {allowed : Value → Operation → Prop} {editor : Editor}

theorem ReachedBy.mono {starts' : Value → Prop} {allowed' : Value → Operation → Prop}
    (reached : ReachedBy starts allowed editor) (hstarts : ∀ v, starts v → starts' v)
    (hallowed : ∀ doc operation, allowed doc operation → allowed' doc operation) :
    ReachedBy starts' allowed' editor := by
  induction reached with
  | new isNew isStart => exact .new isNew fun v hv => hstarts v (isStart v hv)
  | perform _ isAllowed ih => exact ih.perform (hallowed _ _ isAllowed)

/-- A description that describes no operation changes nothing. -/
theorem ReachedBy.apply {description : Value} (reached : ReachedBy starts allowed editor)
    (isAllowed : ∀ operation, Operation.ofValue description = .ok operation →
      allowed editor.document operation) :
    ReachedBy starts allowed (editor.apply description).editor := by
  rw [apply_eq]
  split
  · next operation hoperation => exact reached.perform (isAllowed operation hoperation)
  · exact reached

/-- The operations of a list are carried out up to the first one that fails. -/
theorem ReachedBy.applyEach {ds : List Value} (reached : ReachedBy starts allowed editor)
    (isAllowed : ∀ d ∈ ds, ∀ operation, Operation.ofValue d = .ok operation → ∀ doc, allowed doc operation) :
    ReachedBy starts allowed (editor.applyEach ds).editor := by
  induction ds generalizing editor with
  | nil => exact reached
  | cons d ds ih =>
      have first := reached.apply fun operation h => isAllowed d List.mem_cons_self operation h _
      simp only [Editor.applyEach]
      split
      · exact first
      · exact ih first fun e he => isAllowed e (List.mem_cons_of_mem _ he)

/-- The editor after operations were carried out one by one, whether they succeed or fail. -/
def afterEach (editor : Editor) (descriptions : List Value) : Editor :=
  descriptions.foldl (fun e d => (e.apply d).editor) editor

theorem ReachedBy.afterEach {descriptions : List Value}
    (reached : ReachedBy starts allowed editor)
    (isAllowed : ∀ d ∈ descriptions, ∀ operation, Operation.ofValue d = .ok operation →
      ∀ doc, allowed doc operation) :
    ReachedBy starts allowed (editor.afterEach descriptions) := by
  induction descriptions generalizing editor with
  | nil => exact reached
  | cons d ds ih =>
      exact ih (reached.apply fun operation h => isAllowed d List.mem_cons_self operation h _)
        fun e he => isAllowed e (List.mem_cons_of_mem _ he)

/-- A property of all documents that an editor begins with, which every draft keeps, is one of all documents
that are reached. -/
theorem ReachedBy.document {p : Value → Prop} (hempty : p (Schema.normalize Schema.emptyDocument))
    (hstart : ∀ ms, starts (.object ms) → p (Schema.normalize (.object ms)))
    (hdraft : ∀ {doc nodes operation s change t new}, p doc → allowed doc operation →
      (operation.draft doc nodes).Yields s change t → change.document = some new → p new)
    (reached : ReachedBy starts allowed editor) : p editor.document := by
  induction reached with
  | @new doc editor isNew isStart =>
      obtain ⟨prepared, hprepared, hnew⟩ := bind_eq_ok_iff.mp isNew
      cases hnew
      cases doc with
      | none =>
          cases hprepared
          exact hempty
      | some v =>
          cases v with
          | object ms =>
              cases hprepared
              exact hstart ms (isStart _ rfl)
          | _ => simp [prepare] at hprepared
  | perform _ isAllowed ih => exact document_perform ih (hdraft ih isAllowed)

end ReachedBy

def setDescription (path : Path) (v : Value) : Value :=
  .object [(.str "op", .str "set_value"), (.str "path", .array path), (.str "value", v)]

end Editor

end SchemaForge
