import SchemaForge.Proofs.Inference.Finishing

/-!
Inferred schemas are well-formed. A node is a set of two variants or more, or it states types: one as a word,
several as a list without repetitions. What a type calls for is there exactly if the node states the type, and
the names that a node requires are keys of its properties. All of this is read off the outline of a finished
node, and holds of the nodes inside of sets of variants like of any other.
-/

namespace SchemaForge.Inference

open Sample (types valuesAt elementsOf commonKeys)

/-- A node of a schema: the schema itself, or a node of one of its properties, of its items or of one of its
variants. -/
inductive IsNodeOf (node : Value) : Value → Prop where
  | root : IsNodeOf node node
  | property {ms ps : Members} {m : Scalar × Value}
      (properties : Members.find? (.str "properties") ms = some (.object ps)) (mem : m ∈ ps)
      (below : IsNodeOf node m.2) : IsNodeOf node (.object ms)
  | items {ms : Members} {item : Value} (isItems : Members.find? (.str "items") ms = some item)
      (below : IsNodeOf node item) : IsNodeOf node (.object ms)
  | variant {ms : Members} {xs : List Value} {x : Value}
      (set : Members.find? (.str "oneOf") ms = some (.array xs)) (mem : x ∈ xs)
      (below : IsNodeOf node x) : IsNodeOf node (.object ms)

/-- The members of a well-formed node that states the types `ts`; one that states none is a set of
variants. -/
structure WellFormed (ts : List String) (ms : Members) : Prop where
  type : Members.find? (.str "type") ms = typeEntry ts
  distinct : ts.Nodup
  known : ts ⊆ Sample.recordedTypes
  set : ts = [] → ∃ xs, Members.find? (.str "oneOf") ms = some (.array xs) ∧ 2 ≤ xs.length
  noSet : ts ≠ [] → Members.find? (.str "oneOf") ms = none
  properties : "object" ∈ ts → ∃ ps, Members.find? (.str "properties") ms = some (.object ps)
  noProperties : "object" ∉ ts → Members.find? (.str "properties") ms = none
  items : "array" ∈ ts → ∃ is, Members.find? (.str "items") ms = some (.object is) ∧ is ≠ []
  noItems : "array" ∉ ts → Members.find? (.str "items") ms = none
  required : ∀ v, Members.find? (.str "required") ms = some v →
    ∃ (names : List String) (ps : Members), v = .array (names.map .str) ∧ names ≠ [] ∧
      names.Nodup ∧ Members.find? (.str "properties") ms = some (.object ps) ∧
      ∀ n ∈ names, .str n ∈ Members.keys ps

def IsWellFormed (node : Value) : Prop := ∃ ts ms, node = .object ms ∧ WellFormed ts ms

def AllWellFormed (schema : Value) : Prop := ∀ node, IsNodeOf node schema → IsWellFormed node

/-! ### Nodes and their parts -/

theorem WellFormed.all {ts : List String} {ms : Members} (h : WellFormed ts ms)
    (fields : ∀ ps, Members.find? (.str "properties") ms = some (.object ps) →
      ∀ m ∈ ps, AllWellFormed m.2)
    (items : ∀ item, Members.find? (.str "items") ms = some item → AllWellFormed item)
    (variants : ∀ xs, Members.find? (.str "oneOf") ms = some (.array xs) →
      ∀ x ∈ xs, AllWellFormed x) : AllWellFormed (.object ms) := by
  intro node hnode
  cases hnode with
  | root => exact ⟨ts, ms, rfl, h⟩
  | property properties mem below => exact fields _ properties _ mem node below
  | items isItems below => exact items _ isItems node below
  | variant set mem below => exact variants _ set _ mem node below

theorem AllWellFormed.exists_types {ms : Members} (h : AllWellFormed (.object ms)) :
    ∃ ts, WellFormed ts ms := by
  obtain ⟨ts, _, heq, hts⟩ := h _ .root
  cases heq
  exact ⟨ts, hts⟩

theorem WellFormed.ne_nil {ts : List String} {ms : Members} (h : WellFormed ts ms) : ms ≠ [] := by
  rintro rfl
  have htypes : ts = [] := typeEntry_eq_none_iff.mp h.type.symm
  obtain ⟨xs, hxs, -⟩ := h.set htypes
  simp at hxs

theorem WellFormed.congr {ts : List String} {ms ns : Members} (h : WellFormed ts ms)
    (hagree : ∀ w ∈ acceptanceWords, Members.find? (.str w) ns = Members.find? (.str w) ms) :
    WellFormed ts ns := by
  have htype := hagree "type" (by decide)
  have hset := hagree "oneOf" (by decide)
  have hproperties := hagree "properties" (by decide)
  have hitems := hagree "items" (by decide)
  have hrequired := hagree "required" (by decide)
  exact ⟨htype.trans h.type, h.distinct, h.known, hset ▸ h.set, hset ▸ h.noSet,
    hproperties ▸ h.properties, hproperties ▸ h.noProperties, hitems ▸ h.items, hitems ▸ h.noItems,
    hproperties ▸ hrequired ▸ h.required⟩

/-- A title changes nothing. -/
theorem AllWellFormed.congr {ms ns : Members} (h : AllWellFormed (.object ms))
    (hagree : ∀ w ∈ acceptanceWords, Members.find? (.str w) ns = Members.find? (.str w) ms) :
    AllWellFormed (.object ns) := by
  obtain ⟨ts, hts⟩ := h.exists_types
  refine (hts.congr hagree).all ?_ ?_ ?_
  · intro ps hps m hm node hnode
    exact h node (.property ((hagree _ (by decide)).symm.trans hps) hm hnode)
  · intro item hitem node hnode
    exact h node (.items ((hagree _ (by decide)).symm.trans hitem) hnode)
  · intro xs hxs x hx node hnode
    exact h node (.variant ((hagree _ (by decide)).symm.trans hxs) hx hnode)

/-- A node of one type that requires nothing. -/
theorem wellFormed_of_type {t : String} {ms : Members} (known : t ∈ Sample.recordedTypes)
    (type : Members.find? (.str "type") ms = some (.str t))
    (noSet : Members.find? (.str "oneOf") ms = none)
    (noRequired : Members.find? (.str "required") ms = none)
    (properties : t = "object" → ∃ ps, Members.find? (.str "properties") ms = some (.object ps))
    (noProperties : t ≠ "object" → Members.find? (.str "properties") ms = none)
    (items : t = "array" → ∃ is, Members.find? (.str "items") ms = some (.object is) ∧ is ≠ [])
    (noItems : t ≠ "array" → Members.find? (.str "items") ms = none) : WellFormed [t] ms where
  type := type
  distinct := List.nodup_singleton t
  known := by simpa using known
  set := by simp
  noSet := fun _ => noSet
  properties := fun h => properties (List.mem_singleton.mp h).symm
  noProperties := fun h => noProperties fun ht => h (List.mem_singleton.mpr ht.symm)
  items := fun h => items (List.mem_singleton.mp h).symm
  noItems := fun h => noItems fun ht => h (List.mem_singleton.mpr ht.symm)
  required := by simp [noRequired]

/-- A node of a plain type, whatever its title. -/
theorem allWellFormed_of_plain {t : String} {ms : Members} (plain : t ∈ Sample.plainTypes)
    (hfind : ∀ w ∈ acceptanceWords,
      Members.find? (.str w) ms = if w = "type" then some (.str t) else none) :
    AllWellFormed (.object ms) := by
  have hobject : t ≠ "object" := fun h => absurd (h ▸ plain) (by decide)
  have harray : t ≠ "array" := fun h => absurd (h ▸ plain) (by decide)
  have hknown : Sample.plainTypes ⊆ Sample.recordedTypes := by decide
  have hset := hfind "oneOf" (by decide)
  have hproperties := hfind "properties" (by decide)
  have hitems := hfind "items" (by decide)
  refine (wellFormed_of_type (hknown plain) (hfind _ (by decide)) hset (hfind _ (by decide))
    (fun h => absurd h hobject) (fun _ => hproperties) (fun h => absurd h harray)
    fun _ => hitems).all ?_ ?_ ?_
  · simp [hproperties]
  · simp [hitems]
  · simp [hset]

/-! ### Finished nodes -/

/-- What a finished node says of its samples makes it well-formed. -/
theorem Outline.wellFormed {required : List Scalar} {vs : List Sample} {ns qs : Members} {it : Value}
    (form : Outline required vs ns qs it) (hvs : ∀ v ∈ vs, v.IsJson) (isMet : vs ≠ [])
    (isRequired : required = [] ∨ required = commonKeys vs)
    (hitems : "array" ∈ types vs → ∃ is, it = .object is ∧ is ≠ []) : WellFormed (types vs) ns where
  type := form.type
  distinct := Sample.nodup_types vs
  known := Sample.types_subset_recordedTypes vs
  set := fun h => absurd (Sample.types_eq_nil_iff.mp h) isMet
  noSet := fun _ => form.find?_oneOf
  properties := fun h => ⟨qs, form.find?_properties h⟩
  noProperties := fun h => by rw [form.properties, if_neg h]
  items := fun h => by
    obtain ⟨is, rfl, hne⟩ := hitems h
    exact ⟨is, form.find?_items h, hne⟩
  noItems := fun h => by rw [form.items, if_neg h]
  required := by
    intro v hv
    rw [form.isRequired] at hv
    have hne : required ≠ [] := by
      rintro rfl
      simp [requiredEntry] at hv
    obtain rfl := isRequired.resolve_left hne
    obtain ⟨names, hnames⟩ := Scalar.exists_map_str fun k hk => Sample.isText_of_mem_commonKeys hvs hk
    refine ⟨names, qs, ?_, ?_, ?_, form.find?_properties (Sample.object_mem_types_of_commonKeys hne), ?_⟩
    · rw [hnames] at hne hv
      obtain ⟨name, rest, rfl⟩ : ∃ name rest, names = name :: rest :=
        List.exists_cons_of_ne_nil fun hnil => hne (by rw [hnil]; rfl)
      cases hv
      exact congrArg Value.array List.map_map
    · rintro rfl
      exact hne hnames
    · have hnodup := Sample.nodup_commonKeys hvs
      rw [hnames] at hnodup
      exact hnodup.of_map _
    · intro name hname
      rw [form.keys]
      exact Sample.commonKeys_subset_fieldKeys vs (hnames ▸ List.mem_map_of_mem hname)

theorem Finishes.allWellFormed {place : Place} {vs : List Sample} {node node' : Value}
    (h : Finishes place vs node node') (hvs : ∀ v ∈ vs, v.IsJson) : AllWellFormed node' := by
  induction h with
  | missing => exact allWellFormed_of_plain (t := "string") (by decide) (by decide)
  | @node required vs ms ns ps qs it it' isMet isRequired draft form _ elements ihFields ihElements =>
      have hwell := form.wellFormed hvs isMet isRequired fun harray => (elements harray).isObject
      refine hwell.all ?_ ?_ ?_
      · intro qs' hqs n hn
        rw [form.properties] at hqs
        obtain ⟨-, heq⟩ := Option.ite_none_right_eq_some.mp hqs
        cases heq
        obtain ⟨m, hm, hkey⟩ := form.exists_same_key draft hn
        exact ihFields m hm n hn hkey.symm fun w hw => Sample.isJson_of_mem_valuesAt hvs hw
      · intro item hitem
        rw [form.items] at hitem
        obtain ⟨harray, heq⟩ := Option.ite_none_right_eq_some.mp hitem
        cases heq
        exact ihElements harray fun w hw => Sample.isJson_of_mem_elementsOf hvs hw
      · simp [form.find?_oneOf]
  | uniform _ _ ih => exact ih hvs
  | @mixed ws entries _ several fits _ _ _ _ ih =>
      have hwell : WellFormed [] [(.str "oneOf", .array (entries.map (·.2)))] :=
        ⟨rfl, List.nodup_nil, List.nil_subset _, fun _ => ⟨_, rfl, by simpa using several⟩,
          fun h => absurd rfl h, by simp, fun _ => rfl, by simp, fun _ => rfl, by simp⟩
      refine hwell.all (by simp) (by simp) ?_
      intro xs hxs x hx
      cases hxs
      obtain ⟨e, he, rfl⟩ := List.mem_map.mp hx
      exact ih e he fun v hv => hvs v ((fits e he).among hv)

/-! ### The root -/

/-- Every node of the schema of a JSON sample is well-formed, with whatever title. -/
theorem inferSchema_wellFormed {v : Sample} (hv : v.IsJson) (hnull : v ≠ .scalar .null)
    (title : Option String) :
    ∃ schema, inferSchema v title = .ok schema ∧
      ∀ node, IsNodeOf node schema → IsWellFormed node := by
  cases hv with
  | scalar s =>
      refine ⟨_, rfl, ?_⟩
      have hname := rootKind_scalar fun h : s = .null => hnull (by rw [h])
      exact allWellFormed_of_plain (Sample.type_mem_plainTypes rfl) fun w hw => by
        rw [find?_heading _ _ hw, hname]
  | @array xs elements =>
      have hjson : (Sample.array xs).IsJson := .array elements
      obtain ⟨ms, ns, hinferred⟩ := exists_inferred hjson
      obtain ⟨items, hitems, heq⟩ := hinferred.exists_items
      have hall := (hinferred.finishes hjson).allWellFormed (by simpa using hjson)
      have hitem : AllWellFormed (.object items) := fun node hnode => hall node (.items hitems hnode)
      obtain ⟨is, his, hroot⟩ := find?_entitle title items
      have hset := hroot "oneOf" (by decide)
      have hproperties := hroot "properties" (by decide)
      have hitem' := hitem.congr his
      obtain ⟨ts, hts⟩ := hitem'.exists_types
      have hwell : WellFormed ["array"] (entitle title items (heading .array title)) :=
        wellFormed_of_type (by decide) (hroot _ (by decide)) hset (hroot _ (by decide)) (by simp)
          (fun _ => hproperties) (fun _ => ⟨is, hroot _ (by decide), hts.ne_nil⟩) (by simp)
      refine ⟨_, heq title, hwell.all ?_ ?_ ?_⟩
      · simp [hproperties]
      · intro item hfind
        rw [hroot _ (by decide)] at hfind
        cases hfind
        exact hitem'
      · simp [hset]
  | @object fields text unique values =>
      have hjson : (Sample.object fields).IsJson := .object text unique values
      obtain ⟨ms, ns, hinferred⟩ := exists_inferred hjson
      obtain ⟨ps, hps, heq⟩ := hinferred.exists_properties
      have hall := (hinferred.finishes hjson).allWellFormed (by simpa using hjson)
      have hroot := find?_heading_append .object title "properties" (.object ps)
      have hset := hroot "oneOf" (by decide)
      have hitems := hroot "items" (by decide)
      have hwell : WellFormed ["object"] (heading .object title ++ [(.str "properties", .object ps)]) :=
        wellFormed_of_type (by decide) (hroot _ (by decide)) hset (hroot _ (by decide))
          (fun _ => ⟨ps, hroot _ (by decide)⟩) (by simp) (by simp) (fun _ => hitems)
      refine ⟨_, heq title, hwell.all ?_ ?_ ?_⟩
      · intro ps' hfind m hm node hnode
        rw [hroot _ (by decide)] at hfind
        cases hfind
        exact hall node (.property hps hm hnode)
      · simp [hitems]
      · simp [hset]

/-- Objects that carry one key in common, and a set of variants among what they hold there. -/
theorem inferSchema_wellFormed_rows :
    AllWellFormed (.object [(.str "type", .str "array"), (.str "items", .object [
      (.str "type", .str "object"), (.str "required", .array [.str "a"]),
      (.str "properties", .object [
        (.str "a", .object [(.str "type", .str "array"), (.str "items", .object [(.str "oneOf", .array
          [.object [(.str "type", .str "null")], .object [(.str "type", .str "array"),
            (.str "items", .object [(.str "type", .str "string")])]])])])])])]) := by
  have hjson : (Sample.array [.object [(.str "a", .array [.scalar .null, .array []])],
      .object [(.str "a", .array [])]]).IsJson := by
    simp
  obtain ⟨schema, heq, h⟩ := inferSchema_wellFormed hjson (by simp) none
  cases heq
  exact h

end SchemaForge.Inference
