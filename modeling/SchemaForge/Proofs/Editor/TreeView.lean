import SchemaForge.Proofs.Editor.Steps

/-!
The tree view has no say in what becomes of a document. A draft is handed the tree view and hands it on, so two drafts
of the same operation, made with different tree views, come to the same document, the same reply or the same fault,
and use up the same. Opening and closing a node is the one operation that replies with something of the tree view, and
it leaves the document alone.
-/

namespace SchemaForge

namespace Draft

variable {α : Type}

/-! ### Rules -/

/-- What a draft has come to, apart from the tree view. -/
def outcomeOf (result : Except Fault Change × Ledger) : Except Fault (Option Value × Value) × Ledger :=
  (result.1.map fun change => (change.document, change.reply), result.2)

/-- Two drafts that differ in the tree view at most. -/
def SameEdit (x y : Draft Change) : Prop := ∀ s : Ledger, outcomeOf (x.run.run s) = outcomeOf (y.run.run s)

theorem SameEdit.refl (x : Draft Change) : x.SameEdit x := fun _ => rfl

theorem sameEdit_pure {a b : Change} (hdocument : a.document = b.document) (hreply : a.reply = b.reply) :
    (pure a : Draft Change).SameEdit (pure b) := by
  intro s
  change (Except.ok (a.document, a.reply), s) = (Except.ok (b.document, b.reply), s)
  rw [hdocument, hreply]

theorem SameEdit.bind (x : Draft α) {f g : α → Draft Change} (h : ∀ a, (f a).SameEdit (g a)) :
    (x >>= f).SameEdit (x >>= g) := by
  intro s
  rw [run_bind, run_bind]
  rcases x.run.run s with ⟨fault | a, t⟩
  · rfl
  · exact h a t

theorem SameEdit.ite {p : Prop} [Decidable p] {x y x' y' : Draft Change} (hx : x.SameEdit x')
    (hy : y.SameEdit y') : (if p then x else y).SameEdit (if p then x' else y') := by
  split
  · exact hx
  · exact hy

/-! ### Operations -/

section Operations

variable (doc : Value) (nodes others : OpenNodes) (path : Path)

theorem sameEdit_commit (new : Value) :
    (pure (commit nodes new) : Draft Change).SameEdit (pure (commit others new)) := sameEdit_pure rfl rfl

theorem sameEdit_nothing (reply : Value) :
    (pure (nothing nodes reply) : Draft Change).SameEdit (pure (nothing others reply)) := sameEdit_pure rfl rfl

theorem sameEdit_replaceDocument (root : Value) :
    (replaceDocument nodes root).SameEdit (replaceDocument others root) := by
  refine .bind _ fun new => .bind _ fun type => ?_
  exact .bind _ fun _ => sameEdit_commit nodes others new

theorem sameEdit_setAllRequired (required : Value) :
    (setAllRequired doc nodes required).SameEdit (setAllRequired doc others required) := by
  refine .bind _ fun _ => ?_
  exact .bind _ fun new => sameEdit_commit nodes others new

theorem sameEdit_setValue (v : Value) : (setValue doc nodes path v).SameEdit (setValue doc others path v) := by
  refine .ite ?_ ?_
  · refine .bind _ fun held => .ite ?_ ?_
    · refine .bind _ fun _ => ?_
      exact .bind _ fun new => sameEdit_commit nodes others new
    · exact .bind _ fun _ => sameEdit_nothing nodes others _
  · refine .bind _ fun _ => ?_
    exact .bind _ fun new => sameEdit_commit nodes others new

theorem sameEdit_setType (type : Value) : (setType doc nodes path type).SameEdit (setType doc others path type) := by
  refine .bind _ fun node => .bind _ fun old => .ite (sameEdit_nothing nodes others _) ?_
  refine .bind _ fun shape => .bind _ fun description => ?_
  refine .bind _ fun _ => ?_
  exact .bind _ fun new => sameEdit_commit nodes others new

/-- A field that is renamed takes its entry of the tree view along, and this is seen nowhere else. -/
theorem sameEdit_rename (old new : Value) :
    (rename doc nodes path old new).SameEdit (rename doc others path old new) := by
  refine .bind _ fun props => .ite (sameEdit_nothing nodes others _) ?_
  refine .bind _ fun ms => .bind _ fun newKey => .ite ?_ ?_
  · exact .bind _ fun _ => sameEdit_nothing nodes others _
  · refine .bind _ fun oldKey => ?_
    cases Members.find? oldKey ms with
    | none => exact .refl _
    | some node =>
        refine .bind _ fun moved => .bind _ fun named => ?_
        exact .bind _ fun _ => sameEdit_pure rfl rfl

theorem sameEdit_toggleRequired (name : Value) (required : Bool) :
    (toggleRequired doc nodes path name required).SameEdit (toggleRequired doc others path name required) :=
  .bind _ fun _ => sameEdit_pure rfl rfl

theorem sameEdit_deleteField (prune : Bool) :
    (deleteField doc nodes path prune).SameEdit (deleteField doc others path prune) := by
  refine .bind _ fun node => .bind _ fun removed => .bind _ fun pruned => ?_
  exact .bind _ fun _ => sameEdit_commit nodes others pruned

theorem sameEdit_addSiblingField (after : Value) :
    (addSiblingField doc nodes path after).SameEdit (addSiblingField doc others path after) := by
  refine .bind _ fun props => .ite (.bind _ fun held => .ite (.bind _ fun _ => ?_) ?_) ?_
  -- Whatever is asked about `after`, the field is added in the same way.
  all_goals
    refine .bind _ fun name => .ite (.bind _ fun old => ?_) (.bind _ fun old => ?_)
  all_goals
    refine .bind _ fun ms => .bind _ fun added => .bind _ fun required => ?_
    exact .bind _ fun _ => sameEdit_pure rfl rfl

/-- A field that is added opens its object in the tree view, and this is seen nowhere else. -/
theorem sameEdit_addChildField : (addChildField doc nodes path).SameEdit (addChildField doc others path) := by
  refine .bind _ fun owner => .bind _ fun held => .ite (.bind _ fun props => ?_) (.bind _ fun props => ?_)
  all_goals
    refine .bind _ fun name => .bind _ fun ms => .bind _ fun added => .bind _ fun required => ?_
    exact .bind _ fun _ => sameEdit_pure rfl rfl

end Operations

end Draft

namespace Operation

/-- Whether an operation opens or closes a node of the tree view. -/
def toggles : Operation → Bool
  | .toggleOpen _ _ => true
  | _ => false

/-- Whether a value asks for that, be it well formed or not. -/
def asksToToggle : Value → Bool
  | .object ms => Members.find? (.str "op") ms = some (.str Name.toggleOpen.text)
  | _ => false

theorem nameOf_eq_ok {ms : Members} {name : Name} (h : nameOf ms = .ok name) :
    Members.find? (.str "op") ms = some (.str name.text) := by
  unfold nameOf at h
  dsimp only at h
  split at h
  · next s hgiven =>
      have hop : Members.find? (.str "op") ms = some (.str s) := by
        cases hfind : Members.find? (.str "op") ms with
        | none => simp [hfind] at hgiven
        | some v => exact congrArg some (by simpa [hfind] using hgiven)
      split at h
      · next hfound =>
          cases h
          have htext : name.text = s := by simpa using List.find?_some hfound
          rw [hop, htext]
      · cases h
  · cases h

theorem toggles_build (name : Name) (arg : String → Value) :
    (name.build arg).toggles = decide (name.text = Name.toggleOpen.text) := by
  cases name <;> rfl

/-- What a value asks for can be told by the name that it gives. -/
theorem toggles_of_ofValue {description : Value} {operation : Operation} (h : ofValue description = .ok operation) :
    operation.toggles = asksToToggle description := by
  obtain ⟨ms, hms, hnamed⟩ := bind_eq_ok_iff.mp h
  obtain ⟨name, hname, hargued⟩ := bind_eq_ok_iff.mp hnamed
  obtain ⟨args, -, hchecked⟩ := bind_eq_ok_iff.mp hargued
  obtain ⟨_, -, hbuilt⟩ := bind_eq_ok_iff.mp hchecked
  obtain rfl : description = .object ms := by
    cases description with
    | object ns =>
        cases hms
        rfl
    | _ => cases hms
  split at hbuilt
  · cases hbuilt
    simp [toggles_build, asksToToggle, nameOf_eq_ok hname]
  · cases hbuilt

end Operation

namespace Editor

open Operation (asksToToggle)

theorem sameEdit_draft {operation : Operation} (edits : operation.toggles = false) (doc : Value)
    (nodes others : OpenNodes) : (operation.draft doc nodes).SameEdit (operation.draft doc others) := by
  cases operation with
  | replaceDocument root => exact Draft.sameEdit_replaceDocument nodes others root
  | setValue path v => exact .bind _ fun p => Draft.sameEdit_setValue doc nodes others p v
  | setMock path directive => exact .bind _ fun p => Draft.sameEdit_setValue doc nodes others _ _
  | setType path type => exact .bind _ fun p => Draft.sameEdit_setType doc nodes others p type
  | rename path old new => exact .bind _ fun p => Draft.sameEdit_rename doc nodes others p old new
  | toggleRequired path name required =>
      exact .bind _ fun p => Draft.sameEdit_toggleRequired doc nodes others p name _
  | setAllRequired required => exact Draft.sameEdit_setAllRequired doc nodes others required
  | deleteField path prune => exact .bind _ fun p => Draft.sameEdit_deleteField doc nodes others p _
  | addSiblingField path after => exact .bind _ fun p => Draft.sameEdit_addSiblingField doc nodes others p after
  | addChildField path => exact .bind _ fun p => Draft.sameEdit_addChildField doc nodes others p
  | toggleOpen path value => cases edits

/-- Two editors that differ in the tree view and in who listens at most. -/
structure SameContent (e f : Editor) : Prop where
  document : e.document = f.document
  nextField : e.nextField = f.nextField

/-- Two outcomes that differ in the tree view and in who listens at most. -/
structure Outcome.SameContent (o p : Outcome) : Prop where
  editor : o.editor.SameContent p.editor
  announced : o.announced = p.announced
  notices : o.notices = p.notices
  reply : o.reply = p.reply

theorem SameContent.refl (e : Editor) : e.SameContent e := ⟨rfl, rfl⟩

theorem SameContent.trans {e f g : Editor} (h : e.SameContent f) (h' : f.SameContent g) : e.SameContent g :=
  ⟨h.document.trans h'.document, h.nextField.trans h'.nextField⟩

section Edits

variable {e f : Editor} (h : e.SameContent f)

include h

/-- An edit comes to the same with any tree view. -/
theorem SameContent.perform {operation : Operation} (edits : operation.toggles = false) :
    (e.perform operation).SameContent (f.perform operation) := by
  have hdraft := sameEdit_draft edits e.document e.openNodes f.openNodes ⟨e.nextField, []⟩
  rw [perform_eq, perform_eq, ← h.document, ← h.nextField]
  generalize (operation.draft e.document e.openNodes).run.run ⟨e.nextField, []⟩ = x at hdraft ⊢
  generalize (operation.draft e.document f.openNodes).run.run ⟨e.nextField, []⟩ = y at hdraft ⊢
  rcases x with ⟨fault | change, ledger⟩
  · rcases y with ⟨fault' | change', ledger'⟩
    · obtain ⟨rfl, rfl⟩ : fault = fault' ∧ ledger = ledger' := by
        simpa [Draft.outcomeOf, Except.map] using hdraft
      exact ⟨⟨rfl, rfl⟩, rfl, rfl, rfl⟩
    · cases hdraft
  · rcases y with ⟨fault' | change', ledger'⟩
    · cases hdraft
    · obtain ⟨⟨hdocument, hreply⟩, rfl⟩ :
          (change.document = change'.document ∧ change.reply = change'.reply) ∧ ledger = ledger' := by
        simpa [Draft.outcomeOf, Except.map] using hdraft
      refine ⟨⟨?_, rfl⟩, congrArg Option.toList hdocument, rfl, congrArg Except.ok hreply⟩
      simp only [make, hdocument, h.document]

/-- So does whatever a value asks for, if it does not ask to open or close a node. -/
theorem SameContent.apply {description : Value} (edits : asksToToggle description = false) :
    (e.apply description).SameContent (f.apply description) := by
  rw [apply_eq, apply_eq]
  split
  · next operation hoperation => exact h.perform (by rw [Operation.toggles_of_ofValue hoperation, edits])
  · exact ⟨h, rfl, rfl, rfl⟩

end Edits

/-- So do several in turn. -/
theorem SameContent.applyEach {ds : List Value} (edits : ∀ d ∈ ds, asksToToggle d = false) :
    ∀ {e f : Editor}, e.SameContent f → (e.applyEach ds).SameContent (f.applyEach ds) := by
  induction ds with
  | nil => exact fun h => ⟨h, rfl, rfl, rfl⟩
  | cons d ds ih =>
      intro e f h
      obtain ⟨hd, hds⟩ := List.forall_mem_cons.mp edits
      have hfirst := h.apply hd
      have hreply := hfirst.reply
      simp only [Editor.applyEach]
      rw [← hreply]
      cases he : (e.apply d).reply with
      | error fault => exact hfirst
      | ok reply =>
          have hrest := ih hds hfirst.editor
          exact ⟨hrest.editor, by rw [hfirst.announced, hrest.announced], by rw [hfirst.notices, hrest.notices],
            by rw [hrest.reply]⟩

theorem SameContent.applyAll {e f : Editor} (h : e.SameContent f) {descriptions : Value}
    (edits : ∀ ds, descriptions.elements = .ok ds → ∀ d ∈ ds, asksToToggle d = false) :
    (e.applyAll descriptions).SameContent (f.applyAll descriptions) := by
  rw [applyAll_eq, applyAll_eq]
  split
  · next ds hds => exact SameContent.applyEach (edits ds hds) h
  · exact ⟨h, rfl, rfl, rfl⟩

/-! ### Opening and closing -/

/-- To open or close a node leaves the document and the numbers as they are. -/
theorem sameContent_perform_toggleOpen (editor : Editor) (path value : Value) :
    (editor.perform (.toggleOpen path value)).editor.SameContent editor := by
  rw [perform_eq, Operation.draft]
  cases path.elements with
  | ok p => exact ⟨rfl, rfl⟩
  | error fault => exact ⟨rfl, rfl⟩

theorem sameContent_apply_toggle (editor : Editor) {description : Value}
    (toggles : asksToToggle description = true) : (editor.apply description).editor.SameContent editor := by
  rw [apply_eq]
  split
  · next operation hoperation =>
      rw [← Operation.toggles_of_ofValue hoperation] at toggles
      cases operation with
      | toggleOpen path value => exact sameContent_perform_toggleOpen editor path value
      | _ => cases toggles
  · exact .refl editor

end Editor

end SchemaForge
