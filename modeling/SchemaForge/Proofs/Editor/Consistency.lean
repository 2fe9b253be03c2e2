import SchemaForge.Proofs.Editor.RequiredNames
import SchemaForge.Proofs.Editor.Steps
import SchemaForge.Proofs.Schema.Normalization

/-!
Required names stay consistent while a document is edited. No operation checks the whole document: each one
works on one node, on its properties and on its required names, and each in a way of its own. What they
have in common is that the node they leave is well kept again, and that they leave all other nodes alone.
From this follows that a document that is well kept stays so through every run of field operations, and
through the failures among them.
-/

namespace SchemaForge.Editor

open Schema (NodeAt WellKept IsKeptNode propertyKeys exists_of_ofType exists_shape)
open Fields (Requires Relisted)

/-! ### Documents -/

/-- A JSON document that is well kept. -/
structure Tidy (doc : Value) : Prop where
  json : doc.IsJson
  kept : WellKept doc

theorem Tidy.node {doc : Value} {path : Path} {ms : Members} (h : Tidy doc)
    (node : NodeAt doc path ms) : Tidy (.object ms) :=
  ⟨Value.isJson_of_get h.json node.get, h.kept.at node⟩

theorem Tidy.put {doc : Value} {path : Path} {ms ns : Members} (h : Tidy doc)
    (node : NodeAt doc path ms) (hns : Tidy (.object ns)) : Tidy (doc.put path (.object ns)) :=
  ⟨Value.isJson_put h.json node.get hns.json, h.kept.put node hns.kept⟩

/-- The fields of a node, which are none when it has no properties. -/
def HasFields (ms ps : Members) : Prop :=
  Members.find? (.str "properties") ms = some (.object ps) ∨
    (Members.find? (.str "properties") ms = none ∧ ps = [])

section Nodes

variable {ms ps : Members} (h : Tidy (.object ms)) (hps : HasFields ms ps)

include hps

theorem HasFields.propertyKeys_eq : propertyKeys ms = Members.keys ps := by
  rcases hps with hps | ⟨hnone, rfl⟩
  · exact Schema.propertyKeys_of_find? hps
  · rw [propertyKeys, hnone]
    rfl

include h

theorem HasFields.isJson : (Value.object ps).IsJson := by
  rcases hps with hps | ⟨-, rfl⟩
  · exact Members.isJson_of_find? h.json hps
  · exact Value.isJson_empty

theorem HasFields.isKeptNode : ∀ m ∈ ps, IsKeptNode m.2 := by
  rcases hps with hfind | ⟨-, rfl⟩
  · exact h.kept.isKeptNode (HasFields.isJson h (.inl hfind)) hfind
  · simp

end Nodes

/-- A node is well kept after its fields and its required names were worked on, if its fields are nodes
and the names are theirs. -/
theorem Tidy.edit {ms ns : Members} {names : List String} (h : Tidy (.object ms))
    (json : (Value.object ns).IsJson)
    (items : Members.find? (.str "items") ns = Members.find? (.str "items") ms)
    (properties : ∀ v, Members.find? (.str "properties") ns = some v →
      ∃ qs, v = .object qs ∧ ∀ m ∈ qs, IsKeptNode m.2)
    (listed : Requires ns (names.map .str)) (nodup : names.Nodup)
    (among : ∀ n ∈ names, .str n ∈ propertyKeys ns) : Tidy (.object ns) := by
  refine ⟨json, .of_parts properties (fun v hv => h.kept.items (items ▸ hv)) fun r hr => ?_⟩
  rcases listed with hlisted | ⟨hnone, -⟩
  · rw [hlisted] at hr
    exact ⟨names, (Option.some.inj hr).symm, nodup, among⟩
  · simp [hnone] at hr

/-- With other required names alone. -/
theorem Tidy.relist {ms ns : Members} {names : List String} (h : Tidy (.object ms))
    (relisted : Relisted ms ns names) (nodup : names.Nodup)
    (among : ∀ n ∈ names, .str n ∈ propertyKeys ms) : Tidy (.object ns) := by
  have hproperties := relisted.other "properties" (by simp)
  have hkeys : propertyKeys ns = propertyKeys ms := by
    rw [propertyKeys, hproperties, propertyKeys]
  refine h.edit (relisted.isJson h.json) (relisted.other _ (by simp)) (fun v hv => ?_)
    relisted.listed nodup (hkeys ▸ among)
  rw [hproperties] at hv
  obtain ⟨ps, rfl, -⟩ := h.kept.kept.properties v hv
  exact ⟨ps, rfl, h.kept.isKeptNode (Members.isJson_of_find? h.json hv) hv⟩

/-- With other fields and other required names. -/
theorem Tidy.refit {ms qs ns : Members} {names : List String} (h : Tidy (.object ms))
    (hqs : (Value.object qs).IsJson) (nodes : ∀ m ∈ qs, IsKeptNode m.2)
    (relisted : Relisted (Members.insert (.str "properties") (.object qs) ms) ns names)
    (nodup : names.Nodup) (among : ∀ n ∈ names, .str n ∈ Members.keys qs) :
    Tidy (.object ns) := by
  have hproperties : Members.find? (.str "properties") ns = some (.object qs) := by
    rw [relisted.other _ (by simp), Members.find?_insert_self]
  have hitems : Members.find? (.str "items") ns = Members.find? (.str "items") ms := by
    rw [relisted.other _ (by simp), Members.find?_insert_str, if_neg (by simp)]
  refine h.edit (relisted.isJson (Members.isJson_insert h.json ⟨_, rfl⟩ hqs)) hitems
    (fun v hv => ?_) relisted.listed nodup (Schema.propertyKeys_of_find? hproperties ▸ among)
  rw [hproperties] at hv
  exact ⟨qs, (Option.some.inj hv).symm, nodes⟩

/-- Fields to which a text of a given name was added. -/
structure Extended (ps : Members) (name : String) (qs : Members) : Prop where
  isJson : (Value.object qs).IsJson
  keys : Members.keys ps ⊆ Members.keys qs
  name : .str name ∈ Members.keys qs
  members : ∀ m ∈ qs, m.2 = Schema.stringNode ∨ m ∈ ps

theorem extended_insert {ps : Members} {name : String} (hps : (Value.object ps).IsJson) :
    Extended ps name (Members.insert (.str name) Schema.stringNode ps) where
  isJson := Members.isJson_insert hps ⟨_, rfl⟩ Schema.isJson_stringNode
  keys := fun _ hk => (Members.mem_keys_insert ⟨_, rfl⟩).mpr (.inr hk)
  name := (Members.mem_keys_insert ⟨_, rfl⟩).mpr (.inl rfl)
  members := fun _ hm => Members.mem_of_mem_insert hm

theorem extended_insertAfter {ps : Members} {after name : String} (hps : (Value.object ps).IsJson)
    (hafter : .str after ∈ Members.keys ps) (hname : .str name ∉ Members.keys ps) :
    Extended ps name (Fields.insertAfter (.str after) (.str name) Schema.stringNode ps) where
  isJson := Fields.hereditary_insertAfter Value.hereditary_isJson hps Schema.isJson_stringNode ⟨_, rfl⟩
    (by rwa [← Bool.not_eq_true, Members.has_iff ⟨_, rfl⟩])
  keys := Fields.keys_insertAfter_subset
  name := Fields.mem_keys_insertAfter hafter
  members := by
    intro m hm
    rcases Fields.mem_insertAfter hm with rfl | hm
    · exact .inl rfl
    · exact .inr hm

/-! ### Nodes of a type -/

theorem tidy_shape (t : SchemaType) : Tidy t.shape := by
  have hkept : WellKept (.object [(.str "type", .str "string")]) := Schema.wellKept_stringNode
  cases t with
  | array =>
      refine ⟨by simp [SchemaType.shape, Members.keys], .of_parts ?_ ?_ ?_⟩
      · simp [Members.find?, Scalar.same_str_iff]
      · simpa [Members.find?, Scalar.same_str_iff] using hkept
      · simp [Members.find?, Scalar.same_str_iff]
  | object =>
      refine ⟨by simp [SchemaType.shape, Members.keys], .of_parts ?_ ?_ ?_⟩
      · simp [Members.find?, Scalar.same_str_iff]
      · simp [Members.find?, Scalar.same_str_iff]
      · simp [Members.find?, Scalar.same_str_iff]
  | _ => exact ⟨by simp [SchemaType.shape, Members.keys], .of_parts (by simp) (by simp) (by simp)⟩

theorem Tidy.describe {ms : Members} {v : Value} (h : Tidy (.object ms)) (hv : v.IsJson) :
    Tidy (.object (Members.insert (.str "description") v ms)) := by
  obtain ⟨names, hnames, nodup, among⟩ := Fields.exists_requires_texts h.kept.kept
  have hkeys : propertyKeys (Members.insert (.str "description") v ms) = propertyKeys ms := by
    simp [propertyKeys]
  refine h.edit (Members.isJson_insert h.json ⟨_, rfl⟩ hv) (by simp) (fun w hw => ?_)
    (hnames.congr (by simp)) nodup (hkeys ▸ among)
  have hw : Members.find? (.str "properties") ms = some w := by simpa using hw
  obtain ⟨ps, rfl, -⟩ := h.kept.kept.properties w hw
  exact ⟨ps, rfl, h.kept.isKeptNode (Members.isJson_of_find? h.json hw) hw⟩

/-! ### Operations -/

section Operations

variable {doc new : Value} {nodes : OpenNodes} {owner : Path} {ms : Members} {s t : Ledger}
  {c : Change}

theorem exists_fields {props : Value} (h : Tidy doc) (node : NodeAt doc owner ms)
    (hget : doc.get (owner ++ [.str "properties"]) = .ok props) :
    ∃ ps, props = .object ps ∧ Members.find? (.str "properties") ms = some (.object ps) := by
  obtain ⟨c, hc, hchild⟩ := Value.get_snoc_eq_ok_iff.mp hget
  rw [node.get] at hc
  cases hc
  have hfind : Members.find? (.str "properties") ms = some props := by
    simpa [Value.child] using hchild
  obtain ⟨ps, rfl, -⟩ := (h.kept.at node).kept.properties props hfind
  exact ⟨ps, rfl, hfind⟩

/-- Other fields for the owner, and then one name that becomes required or no longer is. -/
theorem Tidy.refield {qs : Members} {names : List String} {name : String} {required : Bool}
    (h : Tidy doc) (node : NodeAt doc owner ms) (hqs : (Value.object qs).IsJson)
    (hnodes : ∀ m ∈ qs, IsKeptNode m.2) (hnames : Requires ms (names.map .str)) (nodup : names.Nodup)
    (among : ∀ n ∈ Fields.switchName name required names, .str n ∈ Members.keys qs)
    (hnew : Fields.withRequired
      (doc.put owner (.object (Members.insert (.str "properties") (.object qs) ms)))
      (owner ++ [.str "properties"]) (.str name) required = .ok new) : Tidy new := by
  have hmiddle := Value.get_put node.get
    (.object (Members.insert (.str "properties") (.object qs) ms))
  obtain ⟨ns, hns, relisted⟩ := Fields.exists_withRequired hmiddle
    (hnames.congr (by simp)) name required
  rw [hns, Value.put_put node.get] at hnew
  cases hnew
  exact h.put node ((h.node node).refit hqs hnodes relisted (Fields.nodup_switchName nodup) among)

/-- Fields are objects, so that a name that leads to nothing is not there at all. -/
theorem not_mem_keys_of_free {ps : Members} {name : String} (hps : (Value.object ps).IsJson)
    (hkept : ∀ m ∈ ps, IsKeptNode m.2)
    (hfree : (Members.find? (.str name) ps).getD .null = .null) :
    .str name ∉ Members.keys ps := by
  intro hmem
  obtain ⟨m, hm, hkey⟩ := List.mem_map.mp hmem
  obtain ⟨text, unique, -⟩ := Value.isJson_object_iff.mp hps
  obtain ⟨⟨rs, hrs⟩, -⟩ := hkept m hm
  have hfind := Members.find?_of_mem (text m hm) unique hm
  rw [hkey, hrs] at hfind
  simp [hfind] at hfree

theorem tidy_rename {old name : String} (h : Tidy doc) (node : NodeAt doc owner ms)
    (hyields : (Draft.rename doc nodes (owner ++ [.str "properties"]) (.str old)
      (.str name)).Yields s c t) (hnew : c.document = some new) : Tidy new := by
  obtain ⟨props, hprops, rfl | ⟨ps, oldKey, newKey, field, moved, named, hmembers, holdKey, hnewKey,
    hfree, hfield, hmoved, hnamed, -, rfl⟩⟩ := Draft.exists_of_rename hyields
  · simp [Draft.nothing] at hnew
  obtain ⟨_, rfl, hps⟩ := exists_fields h node hprops
  cases hmembers
  cases holdKey
  cases hnewKey
  cases hnew
  have hfields : HasFields ms ps := .inl hps
  have hjson := HasFields.isJson (h.node node) hfields
  have hkept := HasFields.isKeptNode (h.node node) hfields
  obtain ⟨names, hnames, nodup, among⟩ := Fields.exists_requires_texts (h.kept.at node).kept
  rw [hfields.propertyKeys_eq] at among
  -- The new name is free, so that renaming drops no other field.
  have hname := not_mem_keys_of_free hjson hkept hfree
  rw [Fields.renameKey_eq (Members.distinct_of_isJson hjson), Fields.renamedFields_of_not_mem hname,
    Value.set_snoc_object node.get] at hmoved
  cases hmoved
  have hmiddle := Value.get_put node.get
    (.object (Members.insert (.str "properties") (.object (Fields.renamed old name ps)) ms))
  obtain ⟨ns, hns, relisted⟩ := Fields.exists_renameRequired hmiddle
    (hnames.congr (by simp)) old name
  rw [hns, Value.put_put node.get] at hnamed
  cases hnamed
  refine h.put node ((h.node node).refit (Fields.isJson_renamed hjson hname) ?_ relisted ?_ ?_)
  · intro m hm
    obtain ⟨n, hn, rfl⟩ := List.mem_map.mp hm
    exact hkept n hn
  · exact nodup_map_replace nodup (fun hmem => hname (among name hmem)) old
  · intro n hn
    obtain ⟨m, hm, rfl⟩ := List.mem_map.mp hn
    exact Fields.mem_keys_renamed (among m hm)

theorem tidy_toggleRequired {name : String} {required : Bool} (h : Tidy doc)
    (node : NodeAt doc owner ms) (present : required = true → .str name ∈ propertyKeys ms)
    (hyields : (Draft.toggleRequired doc nodes (owner ++ [.str "properties"]) (.str name)
      required).Yields s c t) (hnew : c.document = some new) : Tidy new := by
  obtain ⟨o, ho, rfl⟩ := Draft.exists_of_toggleRequired hyields
  obtain ⟨names, hnames, nodup, among⟩ := Fields.exists_requires_texts (h.kept.at node).kept
  obtain ⟨o', ho', rfl | ⟨ns, rfl, relisted⟩⟩ :=
    Fields.exists_setRequired node.get hnames name required
  · rw [ho'] at ho
    cases ho
    simp at hnew
  · rw [ho'] at ho
    cases ho
    cases hnew
    refine h.put node ((h.node node).relist relisted (Fields.nodup_switchName nodup) ?_)
    intro n hn
    cases required with
    | true =>
        rcases Fields.mem_switchName_true.mp hn with rfl | hn
        · exact present rfl
        · exact among n hn
    | false => exact among n ((Fields.mem_switchName_false nodup).mp hn).2

theorem tidy_deleteField {name : String} (h : Tidy doc) (node : NodeAt doc owner ms)
    (hyields : (Draft.deleteField doc nodes (owner ++ [.str "properties", .str name])
      true).Yields s c t) (hnew : c.document = some new) : Tidy new := by
  obtain ⟨field, removed, pruned, hfield, hremoved, hpruned, rfl⟩ :=
    Draft.exists_of_deleteField hyields
  cases hnew
  -- The field stands in the properties, which are put back into the owner without it.
  have hpath : owner ++ [.str "properties", .str name] =
      (owner ++ [.str "properties"]) ++ [.str name] := by simp
  rw [hpath] at hfield hremoved
  obtain ⟨props, hprops, -⟩ := Value.get_snoc_eq_ok_iff.mp hfield
  obtain ⟨ps, rfl, hps⟩ := exists_fields h node hprops
  have hfields : HasFields ms ps := .inl hps
  have hjson := HasFields.isJson (h.node node) hfields
  obtain ⟨names, hnames, nodup, among⟩ := Fields.exists_requires_texts (h.kept.at node).kept
  rw [hfields.propertyKeys_eq] at among
  have hchild : (Value.object ms).child (.str "properties") = .ok (some (.object ps)) := by
    simp [Value.child, hps]
  rw [Value.remove_snoc_object hprops, Fields.filter_equals_eq_erase, Value.put_append node.get,
    Value.put_cons hchild, Value.put_nil] at hremoved
  cases hremoved
  refine h.refield node (Members.isJson_of_sublist hjson List.filter_sublist) ?_ hnames nodup ?_
    hpruned
  · intro m hm
    exact HasFields.isKeptNode (h.node node) hfields m (List.mem_of_mem_filter hm)
  · intro n hn
    obtain ⟨hne, hn⟩ := (Fields.mem_switchName_false nodup).mp hn
    exact (Members.mem_keys_erase_iff ⟨name, rfl⟩).mpr ⟨by simpa using hne, among n hn⟩

/-- Adding a field to an owner, whichever way, and making it required. -/
theorem Tidy.addField {ps qs : Members} {name : String} (h : Tidy doc)
    (node : NodeAt doc owner ms) (hfields : HasFields ms ps) (extended : Extended ps name qs)
    (hnew : Fields.withRequired
      (doc.put owner (.object (Members.insert (.str "properties") (.object qs) ms)))
      (owner ++ [.str "properties"]) (.str name) true = .ok new) : Tidy new := by
  obtain ⟨names, hnames, nodup, among⟩ := Fields.exists_requires_texts (h.kept.at node).kept
  rw [hfields.propertyKeys_eq] at among
  refine h.refield node extended.isJson ?_ hnames nodup ?_ hnew
  · intro m hm
    rcases extended.members m hm with hm | hm
    · rw [hm]
      exact ⟨⟨_, rfl⟩, Schema.wellKept_stringNode⟩
    · exact HasFields.isKeptNode (h.node node) hfields m hm
  · intro n hn
    rcases Fields.mem_switchName_true.mp hn with rfl | hn
    · exact extended.name
    · exact extended.keys (among n hn)

theorem tidy_addSiblingField {after : Option String} (h : Tidy doc) (node : NodeAt doc owner ms)
    (hyields : (Draft.addSiblingField doc nodes (owner ++ [.str "properties"])
      (after.elim .null .str)).Yields s c t) (hnew : c.document = some new) : Tidy new := by
  obtain ⟨props, number, qs, added, required, hprops, hafter, hnumber, hfield, hadded, hrequired,
    rfl, -⟩ := Draft.exists_of_addSiblingField hyields
  cases hnew
  obtain ⟨ps, rfl, hps⟩ := exists_fields h node hprops
  have hfields : HasFields ms ps := .inl hps
  have hjson := HasFields.isJson (h.node node) hfields
  rw [Value.set_snoc_object node.get] at hadded
  cases hadded
  cases after with
  | none =>
      have hqs : qs = Members.insert (.str (Fields.fieldName number)) Schema.stringNode ps := by
        simpa [Draft.withField] using hfield.symm
      exact h.addField node hfields (hqs ▸ extended_insert hjson) hrequired
  | some after =>
      have hqs : qs =
          Fields.insertAfter (.str after) (.str (Fields.fieldName number)) Schema.stringNode ps := by
        simpa [Draft.withField] using hfield.symm
      have hpresent : Members.has (.str after) ps = true := by
        have hholds := hafter (by simp)
        rw [Option.elim_some, Fields.holds_str] at hholds
        exact Except.ok.inj hholds
      obtain ⟨-, hfree⟩ := Fields.has_nextNumber hnumber
      have hnew : Scalar.str (Fields.fieldName number) ∉ Members.keys ps := by
        rw [← Members.has_iff ⟨_, rfl⟩, hfree]
        simp
      exact h.addField node hfields
        (hqs ▸ extended_insertAfter hjson ((Members.has_iff ⟨_, rfl⟩).mp hpresent) hnew) hrequired

theorem tidy_addChildField (h : Tidy doc) (node : NodeAt doc owner ms)
    (hyields : (Draft.addChildField doc nodes (owner ++ [.str "properties"])).Yields s c t)
    (hnew : c.document = some new) : Tidy new := by
  obtain ⟨_, props, number, ps, added, required, -, hprops, -, hmembers, hadded, hrequired, rfl, -⟩ :=
    Draft.exists_of_addChildField hyields
  cases hnew
  have hfields : HasFields ms ps := by
    rcases hprops with ⟨-, hprops⟩ | ⟨hhas, rfl⟩
    · obtain ⟨_, rfl, hps⟩ := exists_fields h node hprops
      cases hmembers
      exact .inl hps
    · cases hmembers
      -- A path that leads nowhere leaves the owner without properties.
      refine .inr ⟨?_, rfl⟩
      cases hfind : Members.find? (.str "properties") ms with
      | none => rfl
      | some v =>
          have hget : doc.get (owner ++ [.str "properties"]) = .ok v :=
            Value.get_snoc_eq_ok_iff.mpr ⟨_, node.get, by simp [Value.child, hfind]⟩
          simp [Value.has, hget] at hhas
  rw [Value.set_snoc_object node.get] at hadded
  cases hadded
  exact h.addField node hfields (extended_insert (HasFields.isJson (h.node node) hfields)) hrequired

theorem tidy_setType {type : Value} (h : Tidy doc) (node : NodeAt doc owner ms)
    (hyields : (Draft.setType doc nodes owner type).Yields s c t)
    (hnew : c.document = some new) : Tidy new := by
  obtain ⟨value, old, hvalue, -, rfl | ⟨shape, description, replaced, hshape, hdescription, hset,
    rfl⟩⟩ := Draft.exists_of_setType hyields
  · simp [Draft.nothing] at hnew
  · cases hnew
    rw [node.get] at hvalue
    cases hvalue
    obtain ⟨type, rfl⟩ := exists_of_ofType hshape
    rw [Value.set_eq_put node.get] at hset
    cases hset
    obtain ⟨ms', hms⟩ := exists_shape type
    have htidy : Tidy (.object ms') := hms ▸ tidy_shape type
    rw [hms]
    -- Of the old node only a description is taken over.
    split
    · refine h.put node (htidy.describe ?_)
      simp only [Value.getOrNull, Value.lookup, Value.members_object, ok_bind, pure_eq_ok,
        Except.ok.injEq] at hdescription
      cases hfind : Members.find? (.str "description") ms with
      | none =>
          rw [← hdescription, hfind]
          exact .scalar _
      | some v =>
          rw [← hdescription, hfind]
          exact Members.isJson_of_find? (h.node node).json hfind
    · exact h.put node htidy

end Operations

/-! ### Runs -/

/-- The operations on the fields and nodes of a document. The names in them are texts, a name that is to be
required is that of a field, and a field that is deleted takes its name out of the required ones. -/
inductive WorksOn (doc : Value) : Operation → Prop where
  | rename {owner : Path} {ms : Members} (node : NodeAt doc owner ms) (old new : String) :
      WorksOn doc (.rename (.array (owner ++ [.str "properties"])) (.str old) (.str new))
  | toggleRequired {owner : Path} {ms : Members} (node : NodeAt doc owner ms) (name : String)
      (required : Value) (present : required.truthy = true → .str name ∈ propertyKeys ms) :
      WorksOn doc (.toggleRequired (.array (owner ++ [.str "properties"])) (.str name) required)
  | setAllRequired (required : Value) : WorksOn doc (.setAllRequired required)
  | deleteField {owner : Path} {ms : Members} (node : NodeAt doc owner ms) (name : String)
      (prune : Value) (prunes : prune.truthy = true) :
      WorksOn doc (.deleteField (.array (owner ++ [.str "properties", .str name])) prune)
  | addSiblingField {owner : Path} {ms : Members} (node : NodeAt doc owner ms)
      (after : Option String) :
      WorksOn doc (.addSiblingField (.array (owner ++ [.str "properties"])) (after.elim .null .str))
  | addChildField {owner : Path} {ms : Members} (node : NodeAt doc owner ms) :
      WorksOn doc (.addChildField (.array (owner ++ [.str "properties"])))
  | setType {owner : Path} {ms : Members} (node : NodeAt doc owner ms) (type : Value) :
      WorksOn doc (.setType (.array owner) type)
  | toggleOpen (path value : Value) : WorksOn doc (.toggleOpen path value)

/-- The editors that are reached from a document, held as it is or given to a new editor, by any number of
these operations, whether they succeed or fail. -/
inductive Reached (doc : Value) : Editor → Prop where
  | holds {editor : Editor} (document : editor.document = doc) : Reached doc editor
  | new {editor : Editor} (isNew : Editor.new (some doc) = .ok editor) : Reached doc editor
  | perform {editor : Editor} {operation : Operation} (reached : Reached doc editor)
      (worksOn : WorksOn editor.document operation) :
      Reached doc (editor.perform operation).editor

/-- Each operation leaves a well-kept document behind, if it commits one. -/
theorem tidy_draft {doc new : Value} {nodes : OpenNodes} {operation : Operation} {s t : Ledger}
    {c : Change} (h : Tidy doc) (worksOn : WorksOn doc operation)
    (hyields : (operation.draft doc nodes).Yields s c t) (hnew : c.document = some new) :
    Tidy new := by
  cases worksOn with
  | rename node old name =>
      exact tidy_rename h node (by simpa [Operation.draft] using hyields) hnew
  | toggleRequired node name required present =>
      exact tidy_toggleRequired h node present (by simpa [Operation.draft] using hyields) hnew
  | setAllRequired required =>
      -- The one operation that goes through the whole document.
      obtain ⟨-, rfl⟩ := Draft.exists_of_setAllRequired hyields
      cases hnew
      exact ⟨Schema.isJson_switchRequired h.json _, h.kept.switchRequired h.json _⟩
  | deleteField node name prune prunes =>
      exact tidy_deleteField h node (by simpa [Operation.draft, prunes] using hyields) hnew
  | addSiblingField node after =>
      exact tidy_addSiblingField h node (by simpa [Operation.draft] using hyields) hnew
  | addChildField node =>
      exact tidy_addChildField h node (by simpa [Operation.draft] using hyields) hnew
  | setType node type =>
      exact tidy_setType h node (by simpa [Operation.draft] using hyields) hnew
  | toggleOpen path value =>
      simp only [Operation.draft, Draft.toggleOpen, Draft.yields_bind_iff,
        Draft.yields_pure_iff] at hyields
      obtain ⟨_, _, _, rfl, _⟩ := hyields
      simp at hnew

theorem tidy_new {doc : Value} {editor : Editor} (h : Tidy doc)
    (isNew : Editor.new (some doc) = .ok editor) : Tidy editor.document := by
  obtain ⟨prepared, hprepared, hnew⟩ := bind_eq_ok_iff.mp isNew
  cases hnew
  cases doc with
  | object ms =>
      cases hprepared
      exact ⟨Schema.isJson_normalize h.json, h.kept.normalize h.json⟩
  | _ => simp [prepare] at hprepared

/-- Every document that is reached from a well-kept one is well kept. -/
theorem wellKept_of_reached {doc : Value} {editor : Editor} (json : doc.IsJson)
    (kept : WellKept doc) (reached : Reached doc editor) : WellKept editor.document := by
  suffices h : Tidy editor.document from h.kept
  induction reached with
  | holds document => exact document ▸ ⟨json, kept⟩
  | new isNew => exact tidy_new ⟨json, kept⟩ isNew
  | perform _ worksOn ih => exact document_perform ih (tidy_draft ih worksOn)

def oneField (name : String) : Value :=
  .object [(.str "type", .str "object"), (.str "properties", .object [(.str name, Schema.stringNode)]),
    (.str "required", .array [.str name])]

theorem tidy_oneField (name : String) : Tidy (oneField name) := by
  refine ⟨by simp [oneField, Members.keys, Schema.stringNode, SchemaType.shape],
    .of_parts (fun v hv => ?_) (fun v hv => ?_) fun v hv => ?_⟩
  · cases hv
    exact ⟨_, rfl, by simpa using ⟨⟨_, rfl⟩, Schema.wellKept_stringNode⟩⟩
  · cases hv
  · cases hv
    refine ⟨[name], rfl, List.nodup_singleton name, fun n hn => ?_⟩
    rw [List.mem_singleton.mp hn]
    exact List.mem_cons_self

/-- A required field is renamed, and deleted under its new name. -/
theorem wellKept_of_reached_renamed :
    WellKept (oneField "b") ∧
      WellKept (.object [(.str "type", .str "object"), (.str "properties", .object [])]) := by
  have start : Reached (oneField "a") ⟨oneField "a", OpenNodes.initial, 1, []⟩ := .holds rfl
  have first := start.perform (.rename (.root _) "a" "b")
  have second := first.perform (.deleteField (.root _) "b" (.bool true) rfl)
  have tidy := tidy_oneField "a"
  exact ⟨wellKept_of_reached tidy.json tidy.kept first,
    wellKept_of_reached tidy.json tidy.kept second⟩

end SchemaForge.Editor
