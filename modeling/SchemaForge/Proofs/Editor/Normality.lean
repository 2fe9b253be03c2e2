import SchemaForge.Proofs.Editor.Owners
import SchemaForge.Proofs.Editor.Steps
import SchemaForge.Proofs.Schema.Replacement

/-!
A document stays in normal form while it is edited. It is brought into normal form once, when it is put in;
after that no operation looks at the whole document again, but what each of them puts somewhere can stand
there in normal form. An operation on fields works on a node of type object, to which it gives properties
that are as good as the old ones; another type brings a new node along; and the switch for required fields
keeps the form of every node that it goes through.
-/

namespace SchemaForge.Editor

open Schema (IsNormal IsNormalProperty IsNormalFields ObjectAt Refits)
open Fields (Relists)

theorem refits_of_relists {ms ns : Members} {fresh : List Value} (h : Relists ms fresh ns) :
    Refits ms ns := by
  cases h with
  | same => exact .refl ms
  | dropped => exact Schema.refits_erase_required ms
  | given _ => exact Schema.refits_insert_required ms _

/-! ### Fields -/

theorem isNormalProperty_stringNode : IsNormalProperty Schema.stringNode :=
  fun _ => Schema.isNormalNode_stringNode.2

theorem isNormalFields_insert_stringNode {ps : Members} (name : Scalar)
    (h : IsNormalFields (.object ps)) :
    IsNormalFields (.object (Members.insert name Schema.stringNode ps)) := by
  obtain ⟨_, heq, hps⟩ := h
  cases heq
  refine ⟨_, rfl, fun m hm => ?_⟩
  rcases Members.mem_of_mem_insert hm with hm | hm
  · exact hm ▸ isNormalProperty_stringNode
  · exact hps m hm

theorem isNormalFields_withField {props after : Value} {name : String} {qs : Members}
    (h : Draft.withField props after name = .ok qs) (hprops : IsNormalFields props) :
    IsNormalFields (.object qs) := by
  obtain ⟨ps, rfl, hps⟩ := hprops
  unfold Draft.withField at h
  split at h
  · cases h
    exact isNormalFields_insert_stringNode _ ⟨ps, rfl, hps⟩
  · cases h
    refine ⟨_, rfl, fun m hm => ?_⟩
    rcases Fields.mem_insertAfter hm with rfl | hm
    · exact isNormalProperty_stringNode
    · exact hps m hm

theorem isNormalFields_renameKey {ps : Members} (old : Value) (k : Scalar)
    (h : IsNormalFields (.object ps)) : IsNormalFields (.object (Fields.renameKey old k ps)) := by
  obtain ⟨_, heq, hps⟩ := h
  cases heq
  refine ⟨_, rfl, fun m hm => ?_⟩
  obtain ⟨-, n, hn, heq⟩ := Fields.mem_renameKey hm
  exact heq ▸ hps n hn

/-! ### Operations -/

section Operations

variable {doc new : Value} {nodes : OpenNodes} {owner : Path} {ms : Members} {s t : Ledger}
  {c : Change} (h : IsNormal doc)

include h

theorem isNormal_setType {path : Path} {type : Value}
    (hyields : (Draft.setType doc nodes path type).Yields s c t) (hnew : c.document = some new) :
    IsNormal new := by
  obtain ⟨node, old, hget, hold, rfl | ⟨shape, description, replaced, hshape, hdescription, hset,
    rfl⟩⟩ := Draft.exists_of_setType hyields
  · simp [Draft.nothing] at hnew
  · cases hnew
    cases node with
    | object ms =>
        obtain ⟨t, rfl⟩ := Schema.exists_of_ofType hshape
        obtain ⟨ns, hns⟩ := Schema.exists_shape t
        obtain ⟨hbare, hdescribed⟩ := @Schema.replacesAnywhere_shape ms _ _ hns
        rw [Value.set_eq_put hget, hns] at hset
        cases hset
        cases hfind : Members.find? (.str "description") ms with
        | none =>
            have hnull : description = .null := by
              simpa [Value.getOrNull, Value.lookup, hfind, eq_comm] using hdescription
            rw [hnull, Value.truthy, if_neg (by simp)]
            exact (hbare.put hget).node h
        | some v =>
            have hv : description = v := by
              simpa [Value.getOrNull, Value.lookup, hfind, eq_comm] using hdescription
            rw [hv]
            split
            · exact ((hdescribed v hfind).put hget).node h
            · exact (hbare.put hget).node h
    | _ => simp [Value.getOrNull, Value.lookup, Value.members] at hold

variable (node : ObjectAt doc owner ms)

include node

theorem isNormal_put {ns : Members} (hns : Refits ms ns) : IsNormal (doc.put owner (.object ns)) :=
  (node.put (hns.replaces node.isObject)).node h

/-- Another owner, and then one name that becomes required or no longer is. -/
theorem isNormal_withRequired {ns : Members} {name : Value} {required : Bool} (hns : Refits ms ns)
    (hnew : Fields.withRequired (doc.put owner (.object ns)) (owner ++ [.str "properties"]) name
      required = .ok new) : IsNormal new := by
  obtain ⟨rs, os, hget, rfl, hos⟩ := Fields.exists_of_withRequired hnew
  rw [List.dropLast_concat, Value.get_put node.get] at hget
  cases hget
  rw [List.dropLast_concat, Value.put_put node.get]
  exact isNormal_put h node (hns.trans (refits_of_relists hos))

theorem isNormal_toggleRequired {name : Value} {required : Bool}
    (hyields : (Draft.toggleRequired doc nodes (owner ++ [.str "properties"]) name required).Yields
      s c t) (hnew : c.document = some new) : IsNormal new := by
  obtain ⟨o, ho, rfl⟩ := Draft.exists_of_toggleRequired hyields
  cases hnew
  obtain ⟨rs, hget, hnone | ⟨ns, heq, hns⟩⟩ := Fields.exists_of_setRequired ho
  · cases hnone
  · cases heq
    rw [List.dropLast_concat, node.get] at hget
    cases hget
    rw [List.dropLast_concat]
    exact isNormal_put h node (refits_of_relists hns)

theorem isNormal_rename {old name : Value}
    (hyields : (Draft.rename doc nodes (owner ++ [.str "properties"]) old name).Yields s c t)
    (hnew : c.document = some new) : IsNormal new := by
  obtain ⟨props, hprops, rfl | ⟨ps, oldKey, newKey, field, moved, named, hmembers, -, -, -, -, hmoved,
    hnamed, -, rfl⟩⟩ := Draft.exists_of_rename hyields
  · simp [Draft.nothing] at hnew
  cases hnew
  cases props with
  | object qs =>
      cases hmembers
      have hps := (Value.get_snoc_object node.get _).mp hprops
      have hfit : Refits ms (Members.insert (.str "properties")
          (.object (Fields.renameKey old newKey ps)) ms) :=
        Schema.refits_insert_properties fun hold => isNormalFields_renameKey old newKey (hold _ hps)
      rw [Value.set_snoc_object node.get] at hmoved
      cases hmoved
      rcases Fields.exists_of_renameRequired hnamed with rfl | ⟨rs, ns, hget, rfl, hns⟩
      · exact isNormal_put h node hfit
      · rw [List.dropLast_concat, Value.get_put node.get] at hget
        cases hget
        rw [List.dropLast_concat, Value.put_put node.get]
        exact isNormal_put h node (hfit.trans (refits_of_relists hns))
  | _ => simp [Value.members] at hmembers

theorem isNormal_deleteField {name : Value} {prune : Bool}
    (hyields : (Draft.deleteField doc nodes (owner ++ [.str "properties", name]) prune).Yields s c t)
    (hnew : c.document = some new) : IsNormal new := by
  have hpath : owner ++ [.str "properties", name] = (owner ++ [.str "properties"]) ++ [name] := by
    simp
  rw [hpath] at hyields
  obtain ⟨removed, hremoved, hchange⟩ := Draft.exists_of_delete hyields
  -- What is left of the properties is as good as they were, and no properties at all if they were a list.
  have hparts : ∃ ns, removed = doc.put owner (.object ns) ∧ Refits ms ns := by
    obtain ⟨ps, hget, rfl⟩ | ⟨xs, ys, hget, -, rfl⟩ := Value.exists_of_remove_snoc hremoved
    · have hps := (Value.get_snoc_object node.get _).mp hget
      refine ⟨_, Value.put_snoc_object node.get hps _, Schema.refits_insert_properties fun hold => ?_⟩
      obtain ⟨_, heq, hall⟩ := hold _ hps
      cases heq
      exact ⟨_, rfl, fun m hm => hall m (List.mem_of_mem_filter hm)⟩
    · have hxs := (Value.get_snoc_object node.get _).mp hget
      refine ⟨_, Value.put_snoc_object node.get hxs _, Schema.refits_insert_properties fun hold => ?_⟩
      obtain ⟨_, heq, -⟩ := hold _ hxs
      cases heq
  obtain ⟨ns, rfl, hns⟩ := hparts
  rcases hchange with rfl | ⟨name', pruned, hpruned, rfl⟩
  · cases hnew
    exact isNormal_put h node hns
  · cases hnew
    rw [List.dropLast_concat] at hpruned
    exact isNormal_withRequired h node hns hpruned

theorem isNormal_addSiblingField {after : Value}
    (hyields : (Draft.addSiblingField doc nodes (owner ++ [.str "properties"]) after).Yields s c t)
    (hnew : c.document = some new) : IsNormal new := by
  obtain ⟨props, number, qs, added, required, hprops, -, -, hfield, hadded, hrequired, rfl, -⟩ :=
    Draft.exists_of_addSiblingField hyields
  cases hnew
  rw [Value.set_snoc_object node.get] at hadded
  cases hadded
  have hfind := (Value.get_snoc_object node.get _).mp hprops
  exact isNormal_withRequired h node (Schema.refits_insert_properties fun hold =>
    isNormalFields_withField hfield (hold _ hfind)) hrequired

theorem isNormal_addChildField
    (hyields : (Draft.addChildField doc nodes (owner ++ [.str "properties"])).Yields s c t)
    (hnew : c.document = some new) : IsNormal new := by
  obtain ⟨_, props, number, qs, added, required, -, hprops, -, hmembers, hadded, hrequired, rfl, -⟩ :=
    Draft.exists_of_addChildField hyields
  cases hnew
  rw [Value.set_snoc_object node.get] at hadded
  cases hadded
  refine isNormal_withRequired h node (Schema.refits_insert_properties fun hold => ?_) hrequired
  rcases hprops with ⟨-, hprops⟩ | ⟨-, rfl⟩
  · obtain ⟨ps, rfl, hps⟩ := hold _ ((Value.get_snoc_object node.get _).mp hprops)
    have heq : ps = qs := by simpa using hmembers
    exact heq ▸ isNormalFields_insert_stringNode _ ⟨ps, rfl, hps⟩
  · cases hmembers
    exact isNormalFields_insert_stringNode _ ⟨[], rfl, by simp⟩

end Operations

/-! ### Runs -/

/-- The operations on whole documents, on the types of nodes, and on the fields of nodes of type object. -/
inductive WorksOnObjects (doc : Value) : Operation → Prop where
  | replaceDocument (root : Value) : WorksOnObjects doc (.replaceDocument root)
  | setType (path type : Value) : WorksOnObjects doc (.setType path type)
  | rename {path : Value} {owner : Path} {ms : Members} (node : ObjectAt doc owner ms)
      (isPath : path.elements = .ok (owner ++ [.str "properties"])) (old new : Value) :
      WorksOnObjects doc (.rename path old new)
  | toggleRequired {path : Value} {owner : Path} {ms : Members} (node : ObjectAt doc owner ms)
      (isPath : path.elements = .ok (owner ++ [.str "properties"])) (name required : Value) :
      WorksOnObjects doc (.toggleRequired path name required)
  | setAllRequired (required : Value) : WorksOnObjects doc (.setAllRequired required)
  | deleteField {path name : Value} {owner : Path} {ms : Members} (node : ObjectAt doc owner ms)
      (isPath : path.elements = .ok (owner ++ [.str "properties", name])) (prune : Value) :
      WorksOnObjects doc (.deleteField path prune)
  | addSiblingField {path : Value} {owner : Path} {ms : Members} (node : ObjectAt doc owner ms)
      (isPath : path.elements = .ok (owner ++ [.str "properties"])) (after : Value) :
      WorksOnObjects doc (.addSiblingField path after)
  | addChildField {path : Value} {owner : Path} {ms : Members} (node : ObjectAt doc owner ms)
      (isPath : path.elements = .ok (owner ++ [.str "properties"])) :
      WorksOnObjects doc (.addChildField path)
  | toggleOpen (path value : Value) : WorksOnObjects doc (.toggleOpen path value)

/-- Each operation leaves a document in normal form behind, if it commits one. -/
theorem isNormal_draft {doc new : Value} {nodes : OpenNodes} {operation : Operation} {s t : Ledger}
    {c : Change} (h : IsNormal doc) (worksOn : WorksOnObjects doc operation)
    (hyields : (operation.draft doc nodes).Yields s c t) (hnew : c.document = some new) :
    IsNormal new := by
  cases worksOn with
  | replaceDocument root =>
      obtain ⟨ms, rfl, rfl⟩ := Draft.exists_of_replaceDocument hyields
      cases hnew
      exact Schema.isNormal_normalize _
  | setType path type =>
      obtain ⟨p, _, -, hyields⟩ := Draft.yields_bind_iff.mp hyields
      exact isNormal_setType h hyields hnew
  | rename node isPath old name =>
      exact isNormal_rename h node (by simpa [Operation.draft, isPath] using hyields) hnew
  | toggleRequired node isPath name required =>
      exact isNormal_toggleRequired h node (by simpa [Operation.draft, isPath] using hyields) hnew
  | setAllRequired required =>
      obtain ⟨-, rfl⟩ := Draft.exists_of_setAllRequired hyields
      cases hnew
      exact h.switchRequired _
  | deleteField node isPath prune =>
      exact isNormal_deleteField h node (by simpa [Operation.draft, isPath] using hyields) hnew
  | addSiblingField node isPath after =>
      exact isNormal_addSiblingField h node (by simpa [Operation.draft, isPath] using hyields) hnew
  | addChildField node isPath =>
      exact isNormal_addChildField h node (by simpa [Operation.draft, isPath] using hyields) hnew
  | toggleOpen path value =>
      obtain ⟨p, _, -, hyields⟩ := Draft.yields_bind_iff.mp hyields
      rw [Draft.document_of_toggleOpen hyields] at hnew
      cases hnew

/-- Every document that is reached is its own normal form, the order of all members included. -/
theorem normalize_document_of_reached {editor : Editor}
    (reached : ReachedBy (fun _ => True) WorksOnObjects editor) :
    Schema.normalize editor.document = editor.document :=
  reached.document (p := IsNormal) (Schema.isNormal_normalize _)
    (fun _ _ => Schema.isNormal_normalize _) isNormal_draft

def unfinished (name : String) : Value :=
  .object [(.str "properties", .object [(.str name, .object [(.str "properties", .object [])])])]

def finished (name : String) : Value :=
  .object [(.str "properties", .object [(.str name, .object [(.str "properties",
      .object [(.str "field_1", SchemaType.array.shape)]), (.str "type", .str "object"),
        (.str "required", .array [.str "field_1"])])]),
    (.str "type", .str "object")]

/-- A field is added below another one, retyped, and left in its place while the other one is renamed. -/
theorem normalize_document_of_reached_nested :
    Schema.normalize (finished "b") = finished "b" := by
  have isNew : Editor.new (some (unfinished "a")) =
      .ok ⟨Schema.normalize (unfinished "a"), OpenNodes.initial, 1, []⟩ := rfl
  have start : ReachedBy (fun _ => True) WorksOnObjects _ := .new isNew fun _ _ => trivial
  have field : ObjectAt (Schema.normalize (unfinished "a")) [.str "properties", .str "a"] _ :=
    .field rfl rfl (.root rfl)
  have added := @ReachedBy.perform _ _ _
    (.addChildField (.array [.str "properties", .str "a", .str "properties"])) start
    (.addChildField field rfl)
  have retyped := added.perform (.setType
    (.array [.str "properties", .str "a", .str "properties", .str "field_1"]) (.str "array"))
  have renamed := @ReachedBy.perform _ _ _
    (.rename (.array [.str "properties"]) (.str "a") (.str "b")) retyped
    (.rename (.root rfl) rfl (.str "a") (.str "b"))
  exact normalize_document_of_reached renamed

end SchemaForge.Editor
