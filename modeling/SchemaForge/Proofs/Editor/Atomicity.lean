import SchemaForge.Proofs.Editor.Steps

/-!
Operations are atomic and announced once. An operation that fails leaves the document and the tree view as
they were and is heard by nobody; all that it may have done is to use up numbers for new fields. One that
succeeds either commits one document, of which each listener is told once, or leaves the document alone and
is not heard. Of a list of operations the one that fails stops the rest, and what came before it stands.
-/

namespace SchemaForge.Action

/-! ### One operation -/

/-- An action is all or nothing in a workspace. If it fails, only numbers for fields are used up and nobody is called.
If not, every listener is called once with the document that is there afterwards, or nobody is and the document is the
old one. -/
structure IsAtomic (x : Action Value) (w : Workspace) : Prop where
  failed : ∀ fault after, x.run.run w = (.error fault, after) →
    (∃ n, w.editor.nextField ≤ n ∧ after.editor = { w.editor with nextField := n }) ∧ after.calls = w.calls
  succeeded : ∀ reply after, x.run.run w = (.ok reply, after) →
    after.editor.listeners = w.editor.listeners ∧
      (after.calls = w.calls ++ w.editor.listeners.map (fun listener => (listener, after.editor.document)) ∨
        after.calls = w.calls ∧ after.editor.document = w.editor.document)

/-- It is the order of their steps that makes operations atomic: whatever changes the tree view and fails after that
is not. -/
theorem not_isAtomic_changeNodes_throw {change : OpenNodes → OpenNodes} (fault : Fault) {w : Workspace}
    (changes : change w.editor.openNodes ≠ w.editor.openNodes) :
    ¬ IsAtomic (do changeNodes change; throw fault) w := by
  intro h
  obtain ⟨⟨n, -, hafter⟩, -⟩ := h.failed fault _ rfl
  exact changes (congrArg Editor.openNodes hafter)

/-- What makes the change of a draft is atomic, if the draft does not give numbers back. -/
theorem Performs.isAtomic {x : Action Value} {y : Draft Change} {w : Workspace}
    (h : Performs w.editor.document w.editor.openNodes x y) (advances : y.Advances) : x.IsAtomic w := by
  have hrun := h w rfl rfl
  obtain ⟨r, m, told, hle, hdraft⟩ := advances w.editor.nextField
  rw [Workspace.ledger, hdraft] at hrun
  constructor
  · intro fault after hafter
    rw [hrun] at hafter
    cases r with
    | error fault =>
        cases hafter
        exact ⟨⟨m, hle, rfl⟩, rfl⟩
    | ok change => cases hafter
  · intro reply after hafter
    rw [hrun] at hafter
    cases r with
    | error fault => cases hafter
    | ok change =>
        cases hafter
        refine ⟨rfl, ?_⟩
        cases hdocument : change.document with
        | none => exact .inr (by simp [Workspace.take, Workspace.callsOf, Editor.make, hdocument])
        | some new => exact .inl (by simp [Workspace.take, Workspace.callsOf, Editor.make, hdocument])

theorem isAtomic_action (operation : Operation) (w : Workspace) : operation.action.IsAtomic w :=
  (performs_draft operation _ _).isAtomic (Draft.advances_draft operation _ _)

/-- An operation that is described by any value is atomic, also where the value describes none. -/
theorem isAtomic_apply (description : Value) (w : Workspace) : (apply description).IsAtomic w := by
  unfold apply
  cases Operation.ofValue description with
  | ok operation => exact isAtomic_action operation w
  | error fault =>
      constructor
      · intro _ after h
        cases h
        exact ⟨⟨w.editor.nextField, Nat.le_refl _, rfl⟩, rfl⟩
      · intro _ after h
        cases h

/-! ### Several operations -/

/-- Operations that succeed are followed by the rest. -/
theorem run_applyEach_append {before rest replies : List Value} {w middle last : Workspace} {fault : Fault}
    (succeed : (applyEach before).run.run w = (.ok replies, middle))
    (fails : (applyEach rest).run.run middle = (.error fault, last)) :
    (applyEach (before ++ rest)).run.run w = (.error fault, last) := by
  induction before generalizing w replies with
  | nil =>
      cases succeed
      exact fails
  | cons d ds ih =>
      obtain ⟨reply, u, hfirst, hothers⟩ := run_bind_eq_ok_iff.mp succeed
      obtain ⟨replies, v, hothers, hend⟩ := run_bind_eq_ok_iff.mp hothers
      cases hend
      rw [List.cons_append, applyEach, run_bind, hfirst]
      dsimp only
      rw [run_bind, ih hothers]

theorem run_applyAll_of_fails {before after replies : List Value} {d : Value} {w middle last : Workspace}
    {fault : Fault} (succeed : (applyEach before).run.run w = (.ok replies, middle))
    (fails : (apply d).run.run middle = (.error fault, last)) :
    (applyAll (.array (before ++ d :: after))).run.run w = (.error fault, last) := by
  have hrest : (applyEach (d :: after)).run.run middle = (.error fault, last) := by
    rw [applyEach, run_bind, fails]
  change (applyEach (before ++ d :: after) >>= fun replies => pure (Value.array replies)).run.run w = _
  rw [run_bind, run_applyEach_append succeed hrest]

/-- Operations are atomic and announced exactly once, and a list of them does what its operations do up to the
first that fails, and then what that one does. -/
theorem operations_atomic (w : Workspace) :
    (∀ description, (apply description).IsAtomic w) ∧
      ∀ (before : List Value) (d : Value) (after replies : List Value) (middle last : Workspace) (fault : Fault),
        (applyEach before).run.run w = (.ok replies, middle) →
          (apply d).run.run middle = (.error fault, last) →
            (applyAll (.array (before ++ d :: after))).run.run w = (.error fault, last) :=
  ⟨fun description => isAtomic_apply description w, fun _ _ _ _ _ _ _ => run_applyAll_of_fails⟩

def addDescription : Value :=
  .object [(.str "op", .str "add_sibling_field"), (.str "properties_path", .array [.str "properties"])]

def deleteDescription : Value :=
  .object [(.str "op", .str "delete_field"), (.str "path", .array [.str "properties", .str "x"])]

def withOneField : Value :=
  .object [(.str "type", .str "object"), (.str "title", .str "title"),
    (.str "properties", .object [(.str "field_1", Schema.stringNode)]),
    (.str "required", .array [.str "field_1"])]

def beginning : Workspace := Editor.workspace ⟨Schema.emptyDocument, OpenNodes.initial, 1, [4, 7]⟩

/-- A field is added, a deletion fails, and the next addition does not come about: each listener was called once. -/
theorem operations_atomic_stopped :
    ∃ last, (applyAll (.array [addDescription, deleteDescription, addDescription])).run.run beginning =
        (.error (.pathNotFound [.str "properties", .str "x"] 1), last) ∧
      last.editor = ⟨withOneField, OpenNodes.initial, 2, [4, 7]⟩ ∧
      last.calls = [(4, withOneField), (7, withOneField)] := by
  refine ⟨_, (operations_atomic beginning).2 [addDescription] deleteDescription [addDescription]
    [.str "field_1"] _ _ _ rfl rfl, ?_, ?_⟩
  · rfl
  · rfl

end SchemaForge.Action

namespace SchemaForge.Editor

open Workspace (callsOf)

/-! ### Listeners -/

def heardBy (listener : Nat) (calls : List (Nat × Value)) : List Value :=
  (calls.filter (·.1 = listener)).map (·.2)

theorem heardBy_append (listener : Nat) (calls more : List (Nat × Value)) :
    heardBy listener (calls ++ more) = heardBy listener calls ++ heardBy listener more := by
  rw [heardBy, List.filter_append, List.map_append, heardBy, heardBy]

theorem heardBy_callsOf (editor : Editor) (listener : Nat) (announced : List Value) :
    heardBy listener (callsOf editor.listeners announced) = editor.hears listener announced := by
  induction announced with
  | nil => rfl
  | cons doc announced ih =>
      have hdoc : heardBy listener (editor.listeners.map fun l => (l, doc)) =
          List.replicate (editor.listeners.count listener) doc := by
        rw [heardBy, List.filter_map, List.map_map, List.count_eq_length_filter]
        exact List.map_const'
      rw [callsOf, List.flatMap_cons, heardBy_append, hdoc]
      exact congrArg _ ih

/-- A listener hears of what is asked for by being called with it: as often as it is subscribed, with each document
that is announced. -/
theorem heardBy_calls (listener : Nat) (w : Workspace) :
    (∀ description, heardBy listener ((Action.apply description).run.run w).2.calls =
        heardBy listener w.calls ++ w.editor.hears listener (w.editor.apply description).announced) ∧
      ∀ descriptions, heardBy listener ((Action.applyAll descriptions).run.run w).2.calls =
        heardBy listener w.calls ++ w.editor.hears listener (w.editor.applyAll descriptions).announced := by
  refine ⟨fun description => ?_, fun descriptions => ?_⟩
  · rw [run_apply, ← heardBy_callsOf, ← heardBy_append]
    rfl
  · rw [run_applyAll, ← heardBy_callsOf, ← heardBy_append]
    rfl

/-- A new listener hears all that is announced until it leaves, and the other ones hear what they heard before. -/
theorem hears_subscribe {editor : Editor} {listener : Nat} (isNew : listener ∉ editor.listeners)
    (announced : List Value) :
    (editor.subscribe listener).hears listener announced = announced ∧
      (∀ other, other ≠ listener →
        (editor.subscribe listener).hears other announced = editor.hears other announced) ∧
      (editor.subscribe listener).unsubscribe listener = editor := by
  refine ⟨?_, fun other hother => ?_, ?_⟩
  · simp [hears, subscribe, List.count_append, List.count_eq_zero_of_not_mem isNew]
  · simp [hears, subscribe, List.count_append, Ne.symm hother]
  · rw [unsubscribe, subscribe, List.erase_append_right _ isNew]
    simp

end SchemaForge.Editor
