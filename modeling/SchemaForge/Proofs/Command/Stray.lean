import SchemaForge.Proofs.Command.ReportedDrafts

/-!
Where an operation fails without being reported. That happens if it takes a value for a node, for fields or
for the owner of fields, and the value is no object: a node to retype that is a list or a scalar, a list that
is renamed in, fields that stand in a list and so have a list as their owner. In all other cases an operation
succeeds or its fault is reported.
-/

namespace SchemaForge

/-! ### Stray values -/

namespace Value

/-- What was written into a list has a list as its owner. -/
theorem exists_owner_of_inList {doc old : Value} {path : Path} (h : InList doc path old) (v : Value) :
    ∃ xs, doc.set path v = .ok (doc.put path v) ∧
      (doc.put path v).get path.dropLast = .ok (.array xs) := by
  obtain ⟨q, s, xs, rfl, hq, hold⟩ := h
  obtain ⟨c, hc, hchild⟩ := get_snoc_eq_ok_iff.mp hold
  rw [hq] at hc
  cases hc
  obtain ⟨ys, hys⟩ : ∃ ys, (Value.array xs).setChild s v = .array ys := by
    cases hset : (Value.array xs).setChild s v with
    | array ys => exact ⟨ys, rfl⟩
    | _ =>
        have hkind := sameKind_setChild hchild v
        rw [hset] at hkind
        cases hkind
  refine ⟨ys, set_eq_put hold v, ?_⟩
  rw [List.dropLast_concat, put_append hq, put_cons hchild, put_nil, hys, get_put hq]

theorem members_of_stray {v : Value} (stray : v.isObject = false) : v.members = .error .wrongShape := by
  cases v with
  | object ms => simp [isObject] at stray
  | _ => rfl

theorem getOrNull_of_stray {v : Value} (stray : v.isObject = false) (name : String) :
    v.getOrNull name = .error .wrongShape := by
  rw [getOrNull, lookup, members_of_stray stray]
  rfl

theorem exists_elements_of_holds {v needle : Value} {b : Bool} (h : v.holds needle = .ok b) :
    ∃ xs, v.elements = .ok xs := by
  cases v with
  | scalar k =>
      cases k with
      | str text => exact ⟨_, rfl⟩
      | _ => cases h
  | array xs => exact ⟨_, rfl⟩
  | object ms => exact ⟨_, rfl⟩

theorem exists_elements_of_toMembers {v : Value} {ms : Members} (h : v.toMembers = .ok ms) :
    ∃ xs, v.elements = .ok xs := by
  unfold toMembers at h
  split at h
  · exact ⟨_, rfl⟩
  · obtain ⟨xs, hxs, -⟩ := bind_eq_ok_iff.mp h
    exact ⟨xs, hxs⟩

end Value

namespace Fields

theorem setRequired_of_stray {doc owner name : Value} {path : Path} {required : Bool}
    (found : doc.get path.dropLast = .ok owner) (stray : owner.isObject = false) :
    setRequired doc path name required = .error .wrongShape := by
  rw [setRequired, found, ok_bind, requiredNames, Value.getOrNull_of_stray stray]
  rfl

theorem withRequired_of_stray {doc owner name : Value} {path : Path} {required : Bool}
    (found : doc.get path.dropLast = .ok owner) (stray : owner.isObject = false) :
    withRequired doc path name required = .error .wrongShape := by
  rw [withRequired, setRequired_of_stray found stray]
  rfl

end Fields

/-! ### Operations -/

namespace Draft

open Value

variable {doc : Value} {nodes : OpenNodes} {path : Path} {s : Ledger}

theorem fails_setAllRequired (required : Value) (stray : doc.isObject = false) :
    (setAllRequired doc nodes required).Fails s .wrongShape := by
  refine fails_bind_iff.mpr (.inr ⟨(), _, yields_tell_iff.mpr rfl, ?_⟩)
  refine fails_bind_iff.mpr (.inl (fails_lift_iff.mpr ?_))
  rw [Schema.applyRequired, members_of_stray stray]
  rfl

theorem fails_setType {type node : Value} (found : doc.get path = .ok node)
    (stray : node.isObject = false) : (setType doc nodes path type).Fails s .wrongShape := by
  rw [setType, found, lift_ok_bind]
  exact fails_bind_iff.mpr (.inl (fails_lift_iff.mpr (getOrNull_of_stray stray _)))

theorem fails_rename {old new fields : Value} (found : doc.get path = .ok fields)
    (differs : new.equals old = false) (stray : fields.isObject = false) :
    (rename doc nodes path old new).Fails s .wrongShape := by
  rw [rename, found, lift_ok_bind, if_neg (by simp [differs])]
  exact fails_bind_iff.mpr (.inl (fails_lift_iff.mpr (members_of_stray stray)))

theorem fails_toggleRequired {name owner : Value} {required : Bool}
    (found : doc.get path.dropLast = .ok owner) (stray : owner.isObject = false) :
    (toggleRequired doc nodes path name required).Fails s .wrongShape := by
  refine fails_bind_iff.mpr (.inl (fails_lift_iff.mpr ?_))
  exact Fields.setRequired_of_stray found stray

theorem fails_addField {ms : Members} {name fields : Value} {next : Value → Draft Change}
    (inList : InList doc path fields) :
    (do
      let added ← doc.set path (.object ms)
      let required ← Fields.withRequired added path name true
      next required : Draft Change).Fails s .wrongShape := by
  obtain ⟨xs, hset, howner⟩ := exists_owner_of_inList inList (.object ms)
  rw [hset, lift_ok_bind]
  refine fails_bind_iff.mpr (.inl (fails_lift_iff.mpr ?_))
  exact Fields.withRequired_of_stray howner rfl

theorem fails_addSiblingField_after {after fields : Value} (found : doc.get path = .ok fields)
    (given : after ≠ .null) (held : fields.holds after = .ok true)
    (stray : fields.isObject = false ∨ InList doc path fields) :
    (addSiblingField doc nodes path after).Fails s .wrongShape := by
  obtain ⟨xs, hxs⟩ := exists_elements_of_holds held
  obtain ⟨n, hn⟩ := Fields.exists_nextNumber hxs s.nextField
  rw [addSiblingField, found, lift_ok_bind, if_pos given, held, lift_ok_bind]
  refine fails_bind_iff.mpr (.inr ⟨_, _, yields_takeName_iff.mpr ⟨n, hn, rfl, rfl⟩, ?_⟩)
  rw [if_neg given]
  cases fields with
  | object ms =>
      exact fails_addField (stray.resolve_left (by simp [isObject]))
  | _ => exact fails_bind_iff.mpr (.inl (fails_lift_iff.mpr rfl))

theorem fails_addSiblingField_last {fields : Value} {ms : Members} (inList : InList doc path fields)
    (members : fields.toMembers = .ok ms) :
    (addSiblingField doc nodes path .null).Fails s .wrongShape := by
  obtain ⟨_, _, _, -, -, found⟩ := id inList
  obtain ⟨xs, hxs⟩ := exists_elements_of_toMembers members
  obtain ⟨n, hn⟩ := Fields.exists_nextNumber hxs s.nextField
  rw [addSiblingField, found, lift_ok_bind, if_neg (by simp)]
  refine fails_bind_iff.mpr (.inr ⟨_, _, yields_takeName_iff.mpr ⟨n, hn, rfl, rfl⟩, ?_⟩)
  rw [if_pos rfl, members, lift_ok_bind]
  exact fails_addField inList

theorem fails_addChildField {fields : Value} {ms : Members} (inList : InList doc path fields)
    (members : fields.toMembers = .ok ms) : (addChildField doc nodes path).Fails s .wrongShape := by
  obtain ⟨q, last, xs, rfl, howner, found⟩ := id inList
  obtain ⟨ys, hys⟩ := exists_elements_of_toMembers members
  obtain ⟨n, hn⟩ := Fields.exists_nextNumber hys s.nextField
  have hhas : doc.has (q ++ [last]) = .ok true := by rw [has, found]
  rw [addChildField, List.dropLast_concat, howner, lift_ok_bind, hhas, lift_ok_bind, if_pos rfl,
    found, lift_ok_bind]
  refine fails_bind_iff.mpr (.inr ⟨_, _, yields_takeName_iff.mpr ⟨n, hn, rfl, rfl⟩, ?_⟩)
  rw [members, lift_ok_bind]
  exact fails_addField inList

end Draft

namespace Editor

/-- An operation that takes a value of a document for an object although it is none. -/
inductive TakesStray (doc : Value) : Operation → Prop where
  | retype {path type node : Value} {p : Path} (isPath : path.elements = .ok p)
      (found : doc.get p = .ok node) (stray : node.isObject = false) :
      TakesStray doc (.setType path type)
  | rename {path old new fields : Value} {p : Path} (isPath : path.elements = .ok p)
      (found : doc.get p = .ok fields) (differs : new.equals old = false)
      (stray : fields.isObject = false) : TakesStray doc (.rename path old new)
  | toggle {path name required owner : Value} {p : Path} (isPath : path.elements = .ok p)
      (found : doc.get p.dropLast = .ok owner) (stray : owner.isObject = false) :
      TakesStray doc (.toggleRequired path name required)
  | switch {required : Value} (stray : doc.isObject = false) :
      TakesStray doc (.setAllRequired required)
  | addAfter {path after fields : Value} {p : Path} (isPath : path.elements = .ok p)
      (found : doc.get p = .ok fields) (given : after ≠ .null) (held : fields.holds after = .ok true)
      (stray : fields.isObject = false ∨ InList doc p fields) :
      TakesStray doc (.addSiblingField path after)
  | addLast {path fields : Value} {p : Path} {ms : Members} (isPath : path.elements = .ok p)
      (inList : InList doc p fields) (members : fields.toMembers = .ok ms) :
      TakesStray doc (.addSiblingField path .null)
  | addChild {path fields : Value} {p : Path} {ms : Members} (isPath : path.elements = .ok p)
      (inList : InList doc p fields) (members : fields.toMembers = .ok ms) :
      TakesStray doc (.addChildField path)

/-- An operation that takes no stray value fails with faults only that are reported. -/
theorem reports_draft {doc : Value} {operation : Operation} (nodes : OpenNodes)
    (h : ¬ TakesStray doc operation) : (operation.draft doc nodes).Reports := by
  cases operation with
  | replaceDocument root => exact Draft.reports_replaceDocument root
  | setValue path v =>
      exact .lift_bind (Value.reports_elements _) fun p _ => Draft.reports_setValue v
  | setMock path directive =>
      exact .lift_bind (Value.reports_elements _) fun p _ => Draft.reports_setValue _
  | setType path type =>
      refine .lift_bind (Value.reports_elements _) fun p hp => Draft.reports_setType fun node found => ?_
      exact Bool.of_not_eq_false fun stray => h (.retype hp found stray)
  | rename path old new =>
      refine .lift_bind (Value.reports_elements _) fun p hp =>
        Draft.reports_rename fun fields found differs => ?_
      exact Bool.of_not_eq_false fun stray => h (.rename hp found differs stray)
  | toggleRequired path name required =>
      refine .lift_bind (Value.reports_elements _) fun p hp =>
        Draft.reports_toggleRequired fun owner found => ?_
      exact Bool.of_not_eq_false fun stray => h (.toggle hp found stray)
  | setAllRequired required =>
      exact Draft.reports_setAllRequired required (Bool.of_not_eq_false fun stray => h (.switch stray))
  | deleteField path prune =>
      exact .lift_bind (Value.reports_elements _) fun p _ => Draft.reports_deleteField _
  | addSiblingField path after =>
      refine .lift_bind (Value.reports_elements _) fun p hp => Draft.reports_addSiblingField ?_ ?_
      · intro fields found given held
        exact ⟨Bool.of_not_eq_false fun stray => h (.addAfter hp found given held (.inl stray)),
          fun inList => h (.addAfter hp found given held (.inr inList))⟩
      · rintro fields ms rfl members inList
        exact h (.addLast hp inList members)
  | addChildField path =>
      refine .lift_bind (Value.reports_elements _) fun p hp => Draft.reports_addChildField ?_
      exact fun fields ms members inList => h (.addChild hp inList members)
  | toggleOpen path value =>
      exact .lift_bind (Value.reports_elements _) fun p _ => Draft.reports_pure _

/-- An operation that takes a stray value fails with a fault that is not reported. -/
theorem fails_draft {doc : Value} {operation : Operation} (nodes : OpenNodes) (s : Ledger)
    (h : TakesStray doc operation) : (operation.draft doc nodes).Fails s .wrongShape := by
  cases h with
  | retype isPath found stray =>
      rw [Operation.draft, isPath, Draft.lift_ok_bind]
      exact Draft.fails_setType found stray
  | rename isPath found differs stray =>
      rw [Operation.draft, isPath, Draft.lift_ok_bind]
      exact Draft.fails_rename found differs stray
  | toggle isPath found stray =>
      rw [Operation.draft, isPath, Draft.lift_ok_bind]
      exact Draft.fails_toggleRequired found stray
  | switch stray => exact Draft.fails_setAllRequired _ stray
  | addAfter isPath found given held stray =>
      rw [Operation.draft, isPath, Draft.lift_ok_bind]
      exact Draft.fails_addSiblingField_after found given held stray
  | addLast isPath inList members =>
      rw [Operation.draft, isPath, Draft.lift_ok_bind]
      exact Draft.fails_addSiblingField_last inList members
  | addChild isPath inList members =>
      rw [Operation.draft, isPath, Draft.lift_ok_bind]
      exact Draft.fails_addChildField inList members

theorem reply_perform_eq_error_iff {editor : Editor} {operation : Operation} {fault : Fault} :
    (editor.perform operation).reply = .error fault ↔
      (operation.draft editor.document editor.openNodes).Fails ⟨editor.nextField, []⟩ fault := by
  rw [perform_eq]
  unfold Draft.Fails
  rcases (operation.draft editor.document editor.openNodes).run.run ⟨editor.nextField, []⟩ with
    ⟨found | change, ledger⟩
  · constructor
    · intro h
      cases h
      exact ⟨ledger, rfl⟩
    · rintro ⟨t, h⟩
      cases h
      rfl
  · constructor
    · intro h
      cases h
    · rintro ⟨t, h⟩
      cases h

/-- An operation fails unreported exactly if it takes a stray value. -/
theorem reply_perform_eq_wrongShape_iff {editor : Editor} {operation : Operation} :
    (editor.perform operation).reply = .error .wrongShape ↔
      TakesStray editor.document operation := by
  rw [reply_perform_eq_error_iff]
  refine ⟨fun h => by_contra fun hnone => ?_, fails_draft _ _⟩
  have hreported := reports_draft editor.openNodes hnone _ _ h
  cases hreported

theorem reports_perform {editor : Editor} {operation : Operation}
    (h : ¬ TakesStray editor.document operation) : Reports (editor.perform operation).reply :=
  fun fault hfault => reports_draft editor.openNodes h _ fault (reply_perform_eq_error_iff.mp hfault)

end Editor

end SchemaForge
