import SchemaForge.Proofs.Editor.Owners
import SchemaForge.Proofs.Editor.Steps
import SchemaForge.Proofs.Schema.Normalization

/-!
Whether the document is an object. A new document is one, and whatever is written, removed or renamed
somewhere inside a document leaves its root of the kind that it was. So the root is an object until it is
written over as a whole: a value that is written at the empty path takes the place of the document, and
nothing asks whether it is an object.
-/

namespace SchemaForge.Editor

/-- Writing a value that is no object over the whole document. -/
def OverwritesRoot (operation : Operation) : Prop :=
  ∃ path v, operation = .setValue path v ∧ path.elements = .ok [] ∧ isBlankValue v = false ∧
    v.isObject = false

/-! ### Operations -/

section Operations

variable {doc new : Value} {nodes : OpenNodes} {path : Path} {s t : Ledger} {c : Change}

/-- Writing somewhere in an object leaves an object, and writing an object leaves one in any case. -/
theorem isObject_set {v : Value} (hdoc : doc.isObject = true) (h : doc.set path v = .ok new)
    (hv : path = [] → v.isObject = true) : new.isObject = true := by
  induction path using List.reverseRecOn with
  | nil =>
      cases h
      exact hv rfl
  | append_singleton p k _ => rwa [← (Value.sameKind_set h).isObject_eq]

theorem isObject_put {ms ns : Members} (hdoc : doc.isObject = true)
    (hget : doc.get path = .ok (.object ms)) : (doc.put path (.object ns)).isObject = true := by
  rwa [← ((Value.SameKind.object ms ns).put hget).isObject_eq]

theorem isObject_withRequired {name : Value} {required : Bool} (hdoc : doc.isObject = true)
    (h : Fields.withRequired doc path name required = .ok new) : new.isObject = true := by
  obtain ⟨ms, ns, hget, rfl, -⟩ := Fields.exists_of_withRequired h
  exact isObject_put hdoc hget

theorem isObject_setValue {v : Value} (hdoc : doc.isObject = true)
    (hv : path = [] → isBlankValue v = false → v.isObject = true)
    (hyields : (Draft.setValue doc nodes path v).Yields s c t) (hnew : c.document = some new) :
    new.isObject = true := by
  rcases Draft.exists_of_setValue hyields with ⟨-, rfl⟩ | ⟨-, d, hremove, rfl⟩ |
    ⟨hblank, d, hset, rfl⟩
  · simp [Draft.nothing] at hnew
  · cases hnew
    rwa [← (Value.sameKind_remove hremove).isObject_eq]
  · cases hnew
    exact isObject_set hdoc hset fun hpath => hv hpath hblank

theorem isObject_setType {type : Value} (hdoc : doc.isObject = true)
    (hyields : (Draft.setType doc nodes path type).Yields s c t) (hnew : c.document = some new) :
    new.isObject = true := by
  obtain ⟨node, old, -, -, rfl | ⟨shape, description, d, hshape, -, hset, rfl⟩⟩ :=
    Draft.exists_of_setType hyields
  · simp [Draft.nothing] at hnew
  · cases hnew
    obtain ⟨type, rfl⟩ := Schema.exists_of_ofType hshape
    obtain ⟨ms, hms⟩ := Schema.exists_shape type
    rw [hms] at hset
    refine isObject_set hdoc hset fun _ => ?_
    split <;> rfl

theorem isObject_rename {old name : Value} (hdoc : doc.isObject = true)
    (hyields : (Draft.rename doc nodes path old name).Yields s c t) (hnew : c.document = some new) :
    new.isObject = true := by
  obtain ⟨props, -, rfl | ⟨ps, oldKey, newKey, field, moved, named, -, -, -, -, -, hmoved, hnamed, -,
    rfl⟩⟩ := Draft.exists_of_rename hyields
  · simp [Draft.nothing] at hnew
  · cases hnew
    have hobject : moved.isObject = true := isObject_set hdoc hmoved fun _ => rfl
    rcases Fields.exists_of_renameRequired hnamed with rfl | ⟨ms, ns, hget, rfl, -⟩
    · exact hobject
    · exact isObject_put hobject hget

theorem isObject_toggleRequired {name : Value} {required : Bool} (hdoc : doc.isObject = true)
    (hyields : (Draft.toggleRequired doc nodes path name required).Yields s c t)
    (hnew : c.document = some new) : new.isObject = true := by
  obtain ⟨o, ho, rfl⟩ := Draft.exists_of_toggleRequired hyields
  cases hnew
  obtain ⟨ms, hget, hnone | ⟨ns, heq, -⟩⟩ := Fields.exists_of_setRequired ho
  · cases hnone
  · cases heq
    exact isObject_put hdoc hget

theorem isObject_deleteField {prune : Bool} (hdoc : doc.isObject = true)
    (hyields : (Draft.deleteField doc nodes path prune).Yields s c t)
    (hnew : c.document = some new) : new.isObject = true := by
  obtain ⟨removed, hremoved, rfl | ⟨name, pruned, hpruned, rfl⟩⟩ := Draft.exists_of_delete hyields
  · cases hnew
    rwa [← (Value.sameKind_remove hremoved).isObject_eq]
  · cases hnew
    exact isObject_withRequired (by rwa [← (Value.sameKind_remove hremoved).isObject_eq]) hpruned

theorem isObject_addSiblingField {after : Value} (hdoc : doc.isObject = true)
    (hyields : (Draft.addSiblingField doc nodes path after).Yields s c t)
    (hnew : c.document = some new) : new.isObject = true := by
  obtain ⟨_, _, _, added, _, -, -, -, -, hadded, hrequired, rfl, -⟩ :=
    Draft.exists_of_addSiblingField hyields
  cases hnew
  exact isObject_withRequired (isObject_set hdoc hadded fun _ => rfl) hrequired

theorem isObject_addChildField (hdoc : doc.isObject = true)
    (hyields : (Draft.addChildField doc nodes path).Yields s c t) (hnew : c.document = some new) :
    new.isObject = true := by
  obtain ⟨_, _, _, _, added, _, -, -, -, -, hadded, hrequired, rfl, -⟩ :=
    Draft.exists_of_addChildField hyields
  cases hnew
  exact isObject_withRequired (isObject_set hdoc hadded fun _ => rfl) hrequired

end Operations

/-- Each operation but one leaves an object behind, if it commits a document. -/
theorem isObject_draft {doc new : Value} {nodes : OpenNodes} {operation : Operation} {s t : Ledger}
    {c : Change} (hdoc : doc.isObject = true) (hroot : ¬ OverwritesRoot operation)
    (hyields : (operation.draft doc nodes).Yields s c t) (hnew : c.document = some new) :
    new.isObject = true := by
  cases operation with
  | replaceDocument root =>
      obtain ⟨ms, rfl, rfl⟩ := Draft.exists_of_replaceDocument hyields
      cases hnew
      exact Schema.isObject_normalize _
  | setValue path v =>
      obtain ⟨p, _, hp, hyields⟩ := Draft.yields_bind_iff.mp hyields
      refine isObject_setValue hdoc (fun hnil hblank => ?_) hyields hnew
      have hpath : path.elements = .ok [] := hnil ▸ (Draft.yields_lift_iff.mp hp).1
      exact Bool.of_not_eq_false fun hv => hroot ⟨path, v, rfl, hpath, hblank, hv⟩
  | setMock path directive =>
      obtain ⟨p, _, -, hyields⟩ := Draft.yields_bind_iff.mp hyields
      exact isObject_setValue hdoc (by simp) hyields hnew
  | setType path type =>
      obtain ⟨p, _, -, hyields⟩ := Draft.yields_bind_iff.mp hyields
      exact isObject_setType hdoc hyields hnew
  | rename path old name =>
      obtain ⟨p, _, -, hyields⟩ := Draft.yields_bind_iff.mp hyields
      exact isObject_rename hdoc hyields hnew
  | toggleRequired path name required =>
      obtain ⟨p, _, -, hyields⟩ := Draft.yields_bind_iff.mp hyields
      exact isObject_toggleRequired hdoc hyields hnew
  | setAllRequired required =>
      obtain ⟨⟨ms, rfl⟩, rfl⟩ := Draft.exists_of_setAllRequired hyields
      cases hnew
      obtain ⟨ns, heq, -⟩ := Schema.rewrites_switchRequired required.truthy ms
      rw [heq]
      rfl
  | deleteField path prune =>
      obtain ⟨p, _, -, hyields⟩ := Draft.yields_bind_iff.mp hyields
      exact isObject_deleteField hdoc hyields hnew
  | addSiblingField path after =>
      obtain ⟨p, _, -, hyields⟩ := Draft.yields_bind_iff.mp hyields
      exact isObject_addSiblingField hdoc hyields hnew
  | addChildField path =>
      obtain ⟨p, _, -, hyields⟩ := Draft.yields_bind_iff.mp hyields
      exact isObject_addChildField hdoc hyields hnew
  | toggleOpen path value =>
      obtain ⟨p, _, -, hyields⟩ := Draft.yields_bind_iff.mp hyields
      rw [Draft.document_of_toggleOpen hyields] at hnew
      cases hnew

/-- Writing over the whole document succeeds, whatever the document is. -/
theorem isObject_perform_of_overwritesRoot {editor : Editor} {operation : Operation}
    (h : OverwritesRoot operation) : (editor.perform operation).editor.document.isObject = false := by
  obtain ⟨path, v, rfl, hpath, hblank, hv⟩ := h
  have hrun : ((Operation.setValue path v).draft editor.document editor.openNodes).run.run
      ⟨editor.nextField, []⟩ =
        (.ok (Draft.commit editor.openNodes v), ⟨editor.nextField, [.setting []]⟩) := by
    simp only [Operation.draft, hpath, Draft.lift_ok_bind, Draft.setValue, hblank]
    rfl
  rw [perform_eq, hrun]
  exact hv

/-! ### Runs -/

theorem isObject_of_reached {editor : Editor}
    (reached : ReachedBy (fun _ => True) (fun _ operation => ¬ OverwritesRoot operation) editor) :
    editor.document.isObject = true :=
  reached.document (p := fun v => v.isObject = true) (Schema.isObject_normalize _)
    (fun _ _ => Schema.isObject_normalize _) isObject_draft

/-- The document of an editor is an object until it is written over with something else, and it is none
once that happens. -/
theorem isObject_document_afterEach {doc : Option Value} {editor : Editor}
    (isNew : Editor.new doc = .ok editor) {descriptions : List Value}
    (keepRoot : ∀ d ∈ descriptions, ∀ operation, Operation.ofValue d = .ok operation →
      ¬ OverwritesRoot operation) :
    (editor.afterEach descriptions).document.isObject = true ∧
      ∀ d, ((editor.afterEach descriptions).apply d).editor.document.isObject = false ↔
        ∃ operation, Operation.ofValue d = .ok operation ∧ OverwritesRoot operation := by
  have start : ReachedBy (fun _ => True) (fun _ operation => ¬ OverwritesRoot operation) editor :=
    .new isNew fun _ _ => trivial
  have reached := start.afterEach fun d hd operation hoperation _ => keepRoot d hd operation hoperation
  refine ⟨isObject_of_reached reached, fun d => ⟨fun h => ?_, fun ⟨operation, hoperation, hroot⟩ => ?_⟩⟩
  · by_contra hnone
    have hkept := @ReachedBy.apply _ _ _ d reached fun operation hoperation hroot =>
      hnone ⟨operation, hoperation, hroot⟩
    rw [isObject_of_reached hkept] at h
    cases h
  · rw [apply_eq, hoperation]
    exact isObject_perform_of_overwritesRoot hroot

def emptyEditor : Editor := ⟨Schema.emptyDocument, OpenNodes.initial, 1, []⟩

/-- A title is written, and then a number over everything. -/
theorem isObject_document_afterEach_titled :
    (emptyEditor.afterEach [setDescription [.str "title"] (.str "t")]).document.isObject = true ∧
      ((emptyEditor.afterEach [setDescription [.str "title"] (.str "t")]).apply
        (setDescription [] (.int 5))).editor.document.isObject = false := by
  have isNew : Editor.new none = .ok emptyEditor := rfl
  have keepRoot : ∀ d ∈ [setDescription [.str "title"] (.str "t")], ∀ operation,
      Operation.ofValue d = .ok operation → ¬ OverwritesRoot operation := by
    intro d hd operation hoperation
    rw [List.mem_singleton.mp hd] at hoperation
    cases hoperation
    rintro ⟨path, v, heq, hpath, -⟩
    cases heq
    cases hpath
  obtain ⟨isObject, hroot⟩ := isObject_document_afterEach isNew keepRoot
  exact ⟨isObject, (hroot _).mpr ⟨.setValue (.array []) (.int 5), rfl, _, _, rfl, rfl, rfl, rfl⟩⟩

/-- A number is taken for the whole document of a new editor, without any fault. -/
theorem document_apply_number :
    Editor.new none = .ok emptyEditor ∧
      (emptyEditor.apply (setDescription [] (.int 5))).reply = .ok .null ∧
      (emptyEditor.apply (setDescription [] (.int 5))).editor.document = .int 5 :=
  ⟨rfl, rfl, rfl⟩

end SchemaForge.Editor
