import SchemaForge.Proofs.Editor.Drafts

/-!
Operations do what their drafts say. An operation looks at the document, uses up what its draft uses up, and fails
where its draft fails; only after that does it touch the tree view, commit a document and call the listeners. So
of an operation that fails only the ledger of its draft is left behind, and one that succeeds makes the whole
change. Both are read off the steps in order: a step that writes may only stand before steps that cannot fail.
-/

namespace SchemaForge

/-! ### Workspaces -/

namespace Workspace

/-- What drafts use up of a workspace. -/
def ledger (w : Workspace) : Ledger := ⟨w.editor.nextField, w.notices⟩

def withLedger (w : Workspace) (t : Ledger) : Workspace :=
  { w with editor := { w.editor with nextField := t.nextField }, notices := t.notices }

/-- The calls by which some documents are announced in turn. -/
def callsOf (listeners : List Nat) (announced : List Value) : List (Nat × Value) :=
  announced.flatMap fun doc => listeners.map fun listener => (listener, doc)

/-- The workspace after a change, with the ledger of its draft. -/
def take (w : Workspace) (change : Change) (t : Ledger) : Workspace where
  editor := w.editor.make t.nextField change
  announced := w.announced ++ change.document.toList
  calls := w.calls ++ callsOf w.editor.listeners change.document.toList
  notices := t.notices

end Workspace

namespace Action

variable {α β : Type}

theorem run_bind (x : Action α) (f : α → Action β) (w : Workspace) :
    (x >>= f).run.run w =
      match x.run.run w with
      | (.ok a, u) => (f a).run.run u
      | (.error e, u) => (.error e, u) := by
  simp only [ExceptT.run_bind, StateT.run_bind]
  rcases x.run.run w with ⟨_ | _, _⟩ <;> rfl

theorem run_bind_eq_ok_iff {x : Action α} {f : α → Action β} {w v : Workspace} {b : β} :
    (x >>= f).run.run w = (.ok b, v) ↔ ∃ a u, x.run.run w = (.ok a, u) ∧ (f a).run.run u = (.ok b, v) := by
  rw [run_bind]
  rcases x.run.run w with ⟨fault | a, u⟩
  · constructor
    · intro h
      cases h
    · rintro ⟨a, u', h, -⟩
      cases h
  · constructor
    · exact fun h => ⟨a, u, rfl, h⟩
    · rintro ⟨a', u', h, hf⟩
      cases h
      exact hf

/-! ### Steps that look and use up -/

/-- An action that does no more than a draft: it answers or fails as the draft does, and leaves the draft's ledger. -/
def Follows (x : Action α) (y : Draft α) : Prop :=
  ∀ w : Workspace, x.run.run w = ((y.run.run w.ledger).1, w.withLedger (y.run.run w.ledger).2)

theorem follows_pure (a : α) : Follows (pure a) (pure a) := fun _ => rfl

theorem follows_throw (fault : Fault) : Follows (throw fault : Action α) (throw fault) := fun _ => rfl

theorem follows_lift (e : Except Fault α) : Follows (liftM e) (liftM e) := by
  intro w
  cases e <;> rfl

theorem follows_tell (notice : Notice) : Follows (tell notice) (Draft.tell notice) := fun _ => rfl

theorem follows_takeName (taken : Value) : Follows (takeName taken) (Draft.takeName taken) := by
  intro w
  have hget : (get : Action Workspace).run.run w = (.ok w, w) := rfl
  rw [Draft.run_takeName, takeName, run_bind, hget]
  simp only [Workspace.ledger]
  cases Fields.nextNumber taken w.editor.nextField <;> rfl

/-! ### Steps that write -/

/-- An action that makes the change of a draft of the document and the tree view, or fails as the draft does. -/
def Performs (doc : Value) (nodes : OpenNodes) (x : Action Value) (y : Draft Change) : Prop :=
  ∀ w : Workspace, w.editor.document = doc → w.editor.openNodes = nodes →
    x.run.run w =
      match y.run.run w.ledger with
      | (.ok change, t) => (.ok change.reply, w.take change t)
      | (.error fault, t) => (.error fault, w.withLedger t)

theorem run_forM_call (doc : Value) (listeners : List Nat) :
    ∀ w : Workspace, (listeners.forM (call doc)).run.run w =
      (.ok (), { w with calls := w.calls ++ listeners.map fun listener => (listener, doc) }) := by
  induction listeners with
  | nil =>
      intro w
      rw [List.map_nil, List.append_nil]
      rfl
  | cons listener listeners ih =>
      intro w
      change (call doc listener >>= fun _ => listeners.forM (call doc)).run.run w = _
      rw [run_bind]
      refine (ih _).trans ?_
      simp only [List.append_assoc, List.map_cons, List.singleton_append]

theorem run_commit (doc : Value) (w : Workspace) :
    (commit doc).run.run w = (.ok (), { w with
      editor := { w.editor with document := doc }
      announced := w.announced ++ [doc]
      calls := w.calls ++ w.editor.listeners.map fun listener => (listener, doc) }) :=
  run_forM_call doc w.editor.listeners _

section Performs

variable {doc : Value} {nodes : OpenNodes}

theorem Performs.bind {x : Action α} {y : Draft α} {f : α → Action Value} {g : α → Draft Change}
    (hx : Follows x y) (hf : ∀ a, Performs doc nodes (f a) (g a)) :
    Performs doc nodes (x >>= f) (y >>= g) := by
  intro w hdoc hnodes
  rw [run_bind, Draft.run_bind, hx w]
  rcases y.run.run w.ledger with ⟨fault | a, t⟩
  · rfl
  · exact hf a (w.withLedger t) hdoc hnodes

theorem Performs.document {f : Value → Action Value} {y : Draft Change} (h : Performs doc nodes (f doc) y) :
    Performs doc nodes (document >>= f) y := by
  intro w hdoc hnodes
  rw [run_bind]
  change (f w.editor.document).run.run w = _
  rw [hdoc]
  exact h w hdoc hnodes

theorem Performs.ite {p : Prop} [Decidable p] {x x' : Action Value} {y y' : Draft Change}
    (h : p → Performs doc nodes x y) (h' : ¬p → Performs doc nodes x' y') :
    Performs doc nodes (if p then x else x') (if p then y else y') := by
  split
  · next hp => exact h hp
  · next hp => exact h' hp

theorem performs_throw (fault : Fault) : Performs doc nodes (throw fault) (throw fault) := by
  intro w _ _
  rfl

/-- A reply that comes without a commit. -/
theorem performs_return (reply : Value) : Performs doc nodes (pure reply) (pure ⟨none, nodes, reply⟩) := by
  rintro w - rfl
  exact congrArg (Prod.mk _) (by simp [Workspace.take, Workspace.callsOf, Editor.make, Workspace.ledger])

theorem performs_commit (new reply : Value) :
    Performs doc nodes (do commit new; return reply) (pure ⟨some new, nodes, reply⟩) := by
  rintro w - rfl
  rw [run_bind, run_commit]
  exact congrArg (Prod.mk _) (by simp [Workspace.take, Workspace.callsOf, Editor.make, Workspace.ledger])

/-- The tree view may be written to as soon as nothing can fail any more. -/
theorem Performs.changeNodes {change : OpenNodes → OpenNodes} {x : Action Value} {y : Draft Change}
    (h : Performs doc (change nodes) x y) (succeeds : ∀ s, ∃ c t, y.Yields s c t) :
    Performs doc nodes (do Action.changeNodes change; x) y := by
  rintro w hdoc rfl
  obtain ⟨c, t, hyields⟩ := succeeds w.ledger
  rw [Draft.Yields] at hyields
  rw [run_bind, hyields]
  refine (h { w with editor := { w.editor with openNodes := change w.editor.openNodes } } hdoc rfl).trans ?_
  change (match y.run.run w.ledger with | (.ok change, t) => _ | (.error fault, t) => _) = _
  rw [hyields]
  rfl

end Performs

/-! ### Operations -/

section Operations

variable (doc : Value) (nodes : OpenNodes) (path : Path)

theorem performs_replaceDocument (root : Value) :
    Performs doc nodes (replaceDocument root) (Draft.replaceDocument nodes root) := by
  refine .bind (follows_lift _) fun new => .bind (follows_lift _) fun type => ?_
  exact .bind (follows_tell _) fun _ => performs_commit new .null

theorem performs_setAllRequired (required : Value) :
    Performs doc nodes (setAllRequired required) (Draft.setAllRequired doc nodes required) := by
  refine .bind (follows_tell _) fun _ => .document ?_
  exact .bind (follows_lift _) fun new => performs_commit new .null

theorem performs_setValue (v : Value) :
    Performs doc nodes (setValue path v) (Draft.setValue doc nodes path v) := by
  refine .document (.ite (fun _ => ?_) fun _ => ?_)
  · refine .bind (follows_lift _) fun held => .ite (fun _ => ?_) fun _ => ?_
    · refine .bind (follows_tell _) fun _ => ?_
      exact .bind (follows_lift _) fun new => performs_commit new .null
    · exact .bind (follows_lift _) fun _ => performs_return .null
  · refine .bind (follows_tell _) fun _ => ?_
    exact .bind (follows_lift _) fun new => performs_commit new .null

theorem performs_setType (type : Value) :
    Performs doc nodes (setType path type) (Draft.setType doc nodes path type) := by
  refine .document (.bind (follows_lift _) fun node => .bind (follows_lift _) fun old => ?_)
  refine .ite (fun _ => performs_return .null) fun _ => ?_
  refine .bind (follows_lift _) fun shape => .bind (follows_lift _) fun description => ?_
  refine .bind (follows_tell _) fun _ => ?_
  exact .bind (follows_lift _) fun new => performs_commit new .null

/-- The entry in the tree view goes with a renamed field, once nothing can fail any more. -/
theorem Performs.carryNode {old new node : Value} {x : Action Value} {y : OpenNodes → Draft Change}
    (h : ∀ nodes, Performs doc nodes x (y nodes)) (succeeds : ∀ nodes s, ∃ c t, (y nodes).Yields s c t) :
    Performs doc nodes (do Action.carryNode path old new node; x)
      (y (Draft.renamedNodes nodes path old new node)) := by
  cases node with
  | object ms =>
      unfold Action.carryNode Draft.renamedNodes
      dsimp only
      split
      · exact (h _).changeNodes (succeeds _)
      · exact h nodes
  | _ => exact h nodes

theorem performs_rename (old new : Value) :
    Performs doc nodes (rename path old new) (Draft.rename doc nodes path old new) := by
  refine .document (.bind (follows_lift _) fun props => .ite (fun _ => performs_return _) fun _ => ?_)
  refine .bind (follows_lift _) fun ms => .bind (follows_lift _) fun newKey => .ite (fun _ => ?_) fun _ => ?_
  · exact .bind (follows_tell _) fun _ => performs_return _
  refine .bind (follows_lift _) fun oldKey => ?_
  cases Members.find? oldKey ms with
  | none => exact performs_throw _
  | some node =>
      refine .bind (follows_lift _) fun moved => .bind (follows_lift _) fun named => ?_
      refine Performs.carryNode (y := fun nodes => do
        Draft.tell (.renamed old new path)
        return ⟨some named, nodes, .bool true⟩) doc nodes path (fun nodes => ?_) fun nodes s => ⟨_, _, rfl⟩
      exact .bind (follows_tell _) fun _ => performs_commit named (.bool true)

theorem performs_toggleRequired (name : Value) (required : Bool) :
    Performs doc nodes (toggleRequired path name required)
      (Draft.toggleRequired doc nodes path name required) := by
  refine .document (.bind (follows_lift _) fun new => ?_)
  cases new with
  | none => exact performs_return .null
  | some new => exact performs_commit new .null

theorem performs_deleteField (prune : Bool) :
    Performs doc nodes (deleteField path prune) (Draft.deleteField doc nodes path prune) := by
  refine .document (.bind (follows_lift _) fun node => .bind (follows_lift _) fun removed => ?_)
  refine .bind (follows_lift _) fun pruned => .bind (follows_tell _) fun _ => ?_
  exact performs_commit pruned .null

theorem performs_addSiblingField (after : Value) :
    Performs doc nodes (addSiblingField path after) (Draft.addSiblingField doc nodes path after) := by
  refine .document (.bind (follows_lift _) fun props => .ite (fun _ => .bind (follows_lift _) fun held =>
    .ite (fun _ => .bind (follows_throw _) fun _ => ?_) fun _ => ?_) fun _ => ?_)
  -- Whatever is asked about `after`, the field is added in the same way.
  all_goals
    refine .bind (follows_takeName _) fun name => .ite (fun _ => ?_) fun _ => ?_
  all_goals
    refine .bind (follows_lift _) fun old => .bind (follows_pure _) fun ms => ?_
    refine .bind (follows_lift _) fun added => .bind (follows_lift _) fun required => ?_
    exact .bind (follows_tell _) fun _ => performs_commit required (.str name)

theorem performs_addChildField :
    Performs doc nodes (addChildField path) (Draft.addChildField doc nodes path) := by
  refine .document (.bind (follows_lift _) fun owner => .bind (follows_lift _) fun held => ?_)
  refine .ite (fun _ => .bind (follows_lift _) fun props => ?_) fun _ => .bind (follows_pure _) fun props => ?_
  all_goals
    refine .bind (follows_takeName _) fun name => .bind (follows_lift _) fun ms => ?_
    refine .bind (follows_lift _) fun added => .bind (follows_lift _) fun required => ?_
    -- The tree view is changed here, and from here on nothing fails.
    refine Performs.changeNodes ?_ fun s => ⟨_, _, rfl⟩
    exact .bind (follows_tell _) fun _ => performs_commit required (.str name)

theorem performs_toggleOpen (value : Value) :
    Performs doc nodes (toggleOpen path value) (Draft.toggleOpen nodes path value) := by
  rintro w hdoc rfl
  exact Performs.changeNodes (performs_return _) (fun s => ⟨_, _, rfl⟩) w hdoc rfl

end Operations

theorem performs_draft (operation : Operation) (doc : Value) (nodes : OpenNodes) :
    Performs doc nodes operation.action (operation.draft doc nodes) := by
  cases operation with
  | replaceDocument root => exact performs_replaceDocument doc nodes root
  | setValue path v => exact .bind (follows_lift _) fun p => performs_setValue doc nodes p v
  | setMock path directive => exact .bind (follows_lift _) fun p => performs_setValue doc nodes _ _
  | setType path type => exact .bind (follows_lift _) fun p => performs_setType doc nodes p type
  | rename path old new => exact .bind (follows_lift _) fun p => performs_rename doc nodes p old new
  | toggleRequired path name required =>
      exact .bind (follows_lift _) fun p => performs_toggleRequired doc nodes p name _
  | setAllRequired required => exact performs_setAllRequired doc nodes required
  | deleteField path prune => exact .bind (follows_lift _) fun p => performs_deleteField doc nodes p _
  | addSiblingField path after =>
      exact .bind (follows_lift _) fun p => performs_addSiblingField doc nodes p after
  | addChildField path => exact .bind (follows_lift _) fun p => performs_addChildField doc nodes p
  | toggleOpen path value => exact .bind (follows_lift _) fun p => performs_toggleOpen doc nodes p value

end Action

end SchemaForge
