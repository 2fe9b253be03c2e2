import SchemaForge.Proofs.Path.Lens

/-!
The nodes of a document and what it takes for the document to be well kept: at each of its nodes the
properties are nodes again, and the required names are names of properties, each listed once. Being well
kept is a matter of the nodes one by one, so a document stays so when one node is put in the place of
another that is well kept itself.
-/

namespace SchemaForge.Schema

/-- A node of a document, with the path that leads to it: the root, a value among the properties of a
node, or the items of a node. -/
inductive NodeAt : Value → Path → Members → Prop where
  | root (ms : Members) : NodeAt (.object ms) [] ms
  | field {ms ps ns : Members} {name : String} {v : Value} {path : Path}
      (properties : Members.find? (.str "properties") ms = some (.object ps))
      (value : Members.find? (.str name) ps = some v) (node : NodeAt v path ns) :
      NodeAt (.object ms) (.str "properties" :: .str name :: path) ns
  | items {ms ns : Members} {v : Value} {path : Path}
      (items : Members.find? (.str "items") ms = some v) (node : NodeAt v path ns) :
      NodeAt (.object ms) (.str "items" :: path) ns

def propertyKeys (ms : Members) : List Scalar :=
  match Members.find? (.str "properties") ms with
  | some (.object ps) => Members.keys ps
  | _ => []

/-- A value is a list of texts, all different, that are among some keys. -/
def Lists (v : Value) (keys : List Scalar) : Prop :=
  ∃ names : List String, v = .array (names.map .str) ∧ names.Nodup ∧ ∀ n ∈ names, .str n ∈ keys

/-- The properties of a node, if there are any, are objects in an object, and its required names, if
there are any, are different names of properties. -/
structure Kept (ms : Members) : Prop where
  properties : ∀ v, Members.find? (.str "properties") ms = some v →
    ∃ ps, v = .object ps ∧ ∀ m ∈ ps, ∃ ns, m.2 = .object ns
  required : ∀ v, Members.find? (.str "required") ms = some v → Lists v (propertyKeys ms)

/-- A document is well kept if each of its nodes is. -/
def WellKept (doc : Value) : Prop := ∀ path ms, NodeAt doc path ms → Kept ms

/-! ### From node to node -/

theorem NodeAt.get {doc : Value} {path : Path} {ms : Members} (h : NodeAt doc path ms) :
    doc.get path = .ok (.object ms) := by
  induction h with
  | root ms => rfl
  | @field ms ps ns name v path properties value _ ih =>
      refine Value.get_cons_eq_ok_iff.mpr ⟨.object ps, by simp [Value.child, properties], ?_⟩
      exact Value.get_cons_eq_ok_iff.mpr ⟨v, by simp [Value.child, value], ih⟩
  | @items ms ns v path items _ ih =>
      exact Value.get_cons_eq_ok_iff.mpr ⟨v, by simp [Value.child, items], ih⟩

theorem WellKept.kept {ms : Members} (h : WellKept (.object ms)) : Kept ms := h [] ms (.root ms)

theorem WellKept.field {ms ps : Members} {name : String} {v : Value} (h : WellKept (.object ms))
    (properties : Members.find? (.str "properties") ms = some (.object ps))
    (value : Members.find? (.str name) ps = some v) : WellKept v :=
  fun _ ns node => h _ ns (.field properties value node)

theorem WellKept.items {ms : Members} {v : Value} (h : WellKept (.object ms))
    (items : Members.find? (.str "items") ms = some v) : WellKept v :=
  fun _ ns node => h _ ns (.items items node)

theorem WellKept.intro {ms : Members} (kept : Kept ms)
    (fields : ∀ ps name v, Members.find? (.str "properties") ms = some (.object ps) →
      Members.find? (.str name) ps = some v → WellKept v)
    (items : ∀ v, Members.find? (.str "items") ms = some v → WellKept v) :
    WellKept (.object ms) := by
  intro path ns node
  cases node with
  | root => exact kept
  | field properties value node => exact fields _ _ _ properties value _ _ node
  | items hitems node => exact items _ hitems _ _ node

theorem WellKept.at {doc : Value} {path : Path} {ms : Members} (h : WellKept doc)
    (node : NodeAt doc path ms) : WellKept (.object ms) := by
  induction node with
  | root ms => exact h
  | field properties value _ ih => exact ih (h.field properties value)
  | items hitems _ ih => exact ih (h.items hitems)

def IsKeptNode (v : Value) : Prop := (∃ ms, v = .object ms) ∧ WellKept v

/-- A node is well kept if its parts are, and its required names are those of properties. -/
theorem WellKept.of_parts {ms : Members}
    (properties : ∀ v, Members.find? (.str "properties") ms = some v →
      ∃ ps, v = .object ps ∧ ∀ m ∈ ps, IsKeptNode m.2)
    (items : ∀ v, Members.find? (.str "items") ms = some v → WellKept v)
    (required : ∀ v, Members.find? (.str "required") ms = some v → Lists v (propertyKeys ms)) :
    WellKept (.object ms) := by
  refine .intro ⟨fun v hv => ?_, required⟩ ?_ items
  · obtain ⟨ps, rfl, hps⟩ := properties v hv
    exact ⟨ps, rfl, fun m hm => (hps m hm).1⟩
  · intro ps name v hps hv
    obtain ⟨_, heq, hall⟩ := properties _ hps
    cases heq
    exact (hall _ (Members.mem_of_find? ⟨name, rfl⟩ hv)).2

theorem WellKept.isKeptNode {ms ps : Members} (h : WellKept (.object ms))
    (hps : (Value.object ps).IsJson)
    (properties : Members.find? (.str "properties") ms = some (.object ps)) :
    ∀ m ∈ ps, IsKeptNode m.2 := by
  intro m hm
  obtain ⟨_, heq, hall⟩ := h.kept.properties _ properties
  cases heq
  obtain ⟨text, unique, -⟩ := Value.isJson_object_iff.mp hps
  obtain ⟨name, hname⟩ := text m hm
  have hfind : Members.find? m.1 ps = some m.2 := Members.find?_of_mem (text m hm) unique hm
  rw [hname] at hfind
  exact ⟨hall m hm, h.field properties hfind⟩

/-! ### One node in the place of another -/

theorem propertyKeys_of_find? {ms ps : Members}
    (h : Members.find? (.str "properties") ms = some (.object ps)) :
    propertyKeys ms = Members.keys ps := by
  rw [propertyKeys, h]

theorem put_field {ms ps : Members} {name : String} {v : Value}
    (properties : Members.find? (.str "properties") ms = some (.object ps))
    (value : Members.find? (.str name) ps = some v) (path : Path) (x : Value) :
    (Value.object ms).put (.str "properties" :: .str name :: path) x =
      .object (Members.insert (.str "properties")
        (.object (Members.insert (.str name) (v.put path x) ps)) ms) := by
  have hroot : (Value.object ms).child (.str "properties") = .ok (some (.object ps)) := by
    simp [Value.child, properties]
  have hfield : (Value.object ps).child (.str name) = .ok (some v) := by
    simp [Value.child, value]
  rw [Value.put_cons hroot, Value.put_cons hfield]
  rfl

theorem put_items {ms : Members} {v : Value} (items : Members.find? (.str "items") ms = some v)
    (path : Path) (x : Value) :
    (Value.object ms).put (.str "items" :: path) x =
      .object (Members.insert (.str "items") (v.put path x) ms) := by
  have hroot : (Value.object ms).child (.str "items") = .ok (some v) := by
    simp [Value.child, items]
  rw [Value.put_cons hroot]
  rfl

theorem NodeAt.exists_put {doc : Value} {path : Path} {ms : Members} (h : NodeAt doc path ms)
    (ns : Members) : ∃ rs, doc.put path (.object ns) = .object rs := by
  cases h with
  | root => exact ⟨ns, by rw [Value.put_nil]⟩
  | field properties value _ => exact ⟨_, put_field properties value _ _⟩
  | items hitems _ => exact ⟨_, put_items hitems _ _⟩

/-- Properties of the same names in the place of those that a node has. -/
theorem WellKept.insert_properties {ms ps qs : Members} (h : WellKept (.object ms))
    (properties : Members.find? (.str "properties") ms = some (.object ps))
    (hkeys : Members.keys qs = Members.keys ps) (hnodes : ∀ m ∈ qs, ∃ ns, m.2 = .object ns)
    (hfields : ∀ name v, Members.find? (.str name) qs = some v → WellKept v) :
    WellKept (.object (Members.insert (.str "properties") (.object qs) ms)) := by
  refine .intro ⟨fun x hx => ?_, fun x hx => ?_⟩ (fun ps' name x hps hx => ?_) fun x hx => ?_
  · simp only [Members.find?_insert_str, if_true, Option.some.injEq] at hx
    exact ⟨qs, hx.symm, hnodes⟩
  · have hold := h.kept.required x (by simpa using hx)
    rw [propertyKeys_of_find? properties] at hold
    rwa [propertyKeys_of_find? (Members.find?_insert_self _ _ _), hkeys]
  · simp only [Members.find?_insert_str, if_true, Option.some.injEq, Value.object.injEq] at hps
    exact hfields name x (hps ▸ hx)
  · exact h.items (by simpa using hx)

/-- Other items in the place of those that a node has. -/
theorem WellKept.insert_items {ms : Members} {v : Value} (h : WellKept (.object ms))
    (hv : WellKept v) : WellKept (.object (Members.insert (.str "items") v ms)) := by
  refine .intro ⟨fun x hx => ?_, fun x hx => ?_⟩ (fun ps name x hps hx => ?_) fun x hx => ?_
  · exact h.kept.properties x (by simpa using hx)
  · have hold := h.kept.required x (by simpa using hx)
    simpa [propertyKeys] using hold
  · exact h.field (by simpa using hps) hx
  · simp only [Members.find?_insert_str, if_true, Option.some.injEq] at hx
    rwa [← hx]

/-- A well-kept document stays so when a well-kept node takes the place of one of its nodes. -/
theorem WellKept.put {doc : Value} {path : Path} {ms ns : Members} (h : WellKept doc)
    (node : NodeAt doc path ms) (hns : WellKept (.object ns)) :
    WellKept (doc.put path (.object ns)) := by
  induction node with
  | root => rwa [Value.put_nil]
  | @field rs ps _ name v path properties value node ih =>
      obtain ⟨qs, hqs⟩ := node.exists_put ns
      have ih := ih (h.field properties value)
      rw [put_field properties value, hqs]
      rw [hqs] at ih
      have hname : Members.has (.str name) ps = true := by rw [Members.has, value]; rfl
      -- The field keeps its place, so that the names of the properties stay as they are.
      refine h.insert_properties properties (Members.keys_insert_of_has hname)
        (fun m hm => ?_) fun other x hx => ?_
      · obtain ⟨_, heq, hall⟩ := h.kept.properties _ properties
        cases heq
        rcases Members.mem_of_mem_insert hm with hm | hm
        · exact ⟨qs, hm⟩
        · exact hall m hm
      · rw [Members.find?_insert_str] at hx
        split at hx
        · cases hx
          exact ih
        · exact h.field properties hx
  | items hitems _ ih =>
      rw [put_items hitems]
      exact h.insert_items (ih (h.items hitems))

end SchemaForge.Schema
