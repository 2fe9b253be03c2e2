import SchemaForge.Proofs.Inference.Finished

/-!
The invariant of inference: what a node says that was widened by some samples in turn. Read for each
place of a schema, it gives the type, the properties and the required names of the node there as facts
about the list of all samples met at that place, whatever the order in which arrays, objects and scalars
came and however the samples were spread over several arrays.

The node of a field may have seen several types and lists them. The node of elements has one type, or is
a set of variants. How variants come about depends on which elements an array brought first, so of a set
of variants the invariant only says what each of them describes, that every element is accepted, and
that no two of them are alike.
-/

namespace SchemaForge.Inference

open Sample (types fieldKeys valuesAt elementsOf commonKeys)

/-- The value of the keyword `type` for some types: one as a word, several as a list. -/
def typeEntry : List String → Option Value
  | [] => none
  | [t] => some (.str t)
  | ts => some (.array (ts.map .str))

/-- The value of the keyword `required` for some names. Without names there is none. -/
def requiredEntry : List Scalar → Option Value
  | [] => none
  | ks => some (.array (ks.map .scalar))

/-- The keywords of nodes that are no set of variants. -/
def nodeWords : List String := ["type", "required", "properties", "items"]

/-- What the members of a node say about the samples that the node was widened by: `ps` are the
properties, which it has if there was an object, and `it` is the node of the elements, which it has if
there was an array. -/
structure Outline (required : List Scalar) (vs : List Sample) (ms ps : Members) (it : Value) :
    Prop where
  unique : (Members.keys ms).Nodup
  known : ∀ k ∈ Members.keys ms, ∃ w ∈ nodeWords, k = .str w
  type : Members.find? (.str "type") ms = typeEntry (types vs)
  isRequired : Members.find? (.str "required") ms = requiredEntry required
  properties : Members.find? (.str "properties") ms =
    if "object" ∈ types vs then some (.object ps) else none
  keys : Members.keys ps = fieldKeys vs
  items : Members.find? (.str "items") ms = if "array" ∈ types vs then some it else none

/-- Where a node stands: on its own, with some names that it requires, or for the elements of arrays. -/
inductive Place where
  | node (required : List Scalar)
  | items

/-- A variant, with the samples that it was widened by and the names that it requires. -/
structure Variant where
  required : List Scalar
  samples : List Sample
  node : Value

/-- A variant describes elements of one type, and requires either nothing or what they all carry. -/
structure Variant.FitsIn (g : Variant) (ws : List Sample) : Prop where
  among : g.samples ⊆ ws
  oneType : (types g.samples).length = 1
  isRequired : g.required = [] ∨ g.required = commonKeys g.samples

/-- A node is what widening by some samples in turn leads to. -/
inductive Describes : Place → List Sample → Value → Prop where
  | node {required : List Scalar} {vs : List Sample} {ms ps : Members} {it : Value}
      (outline : Outline required vs ms ps it)
      (fields : ∀ m ∈ ps, Describes (.node []) (valuesAt m.1 vs) m.2)
      (elements : "array" ∈ types vs → Describes .items (elementsOf vs) it) :
      Describes (.node required) vs (.object ms)
  | uniform {ws : List Sample} {node : Value} (few : (types ws).length ≤ 1)
      (describes : Describes (.node (commonKeys ws)) ws node) : Describes .items ws node
  | mixed {ws : List Sample} {variants : List Variant} (many : 2 ≤ (types ws).length)
      (fits : ∀ g ∈ variants, g.FitsIn ws)
      (describes : ∀ g ∈ variants, Describes (.node g.required) g.samples g.node)
      (covers : ∀ w ∈ ws, ∃ g ∈ variants, Accepts g.node w)
      (distinct : (variants.map Variant.node).Pairwise fun a b => b.alike a = false) :
      Describes .items ws (.object [(.str "oneOf", .array (variants.map Variant.node))])

/-! ### Outlines -/

namespace Outline

variable {required : List Scalar} {vs : List Sample} {ms ps : Members} {it : Value}
  (h : Outline required vs ms ps it)

include h

/-- A keyword that is none of a node's is not there. -/
theorem find?_eq_none {w : String} (hw : w ∉ nodeWords) : Members.find? (.str w) ms = none := by
  refine (Members.find?_eq_none_iff ⟨w, rfl⟩).mpr fun hmem => ?_
  obtain ⟨u, hu, heq⟩ := h.known _ hmem
  cases heq
  exact hw hu

theorem find?_oneOf : Members.find? (.str "oneOf") ms = none := h.find?_eq_none (by decide)

theorem isText_of_mem {m : Scalar × Value} (hm : m ∈ ms) : m.1.IsText := by
  obtain ⟨w, -, heq⟩ := h.known m.1 (List.mem_map_of_mem hm)
  exact ⟨w, heq⟩

/-- What a member of a node states. -/
theorem cases_of_mem {m : Scalar × Value} (hm : m ∈ ms) :
    (m.1 = .str "type" ∧ typeEntry (types vs) = some m.2) ∨
      (m.1 = .str "required" ∧ requiredEntry required = some m.2) ∨
      (m.1 = .str "properties" ∧ "object" ∈ types vs ∧ m.2 = .object ps) ∨
      m.1 = .str "items" ∧ "array" ∈ types vs ∧ m.2 = it := by
  have hfind : Members.find? m.1 ms = some m.2 := Members.find?_of_mem (h.isText_of_mem hm) h.unique hm
  obtain ⟨w, hw, hkey⟩ := h.known m.1 (List.mem_map_of_mem hm)
  rw [hkey] at hfind
  simp only [nodeWords, List.mem_cons, List.not_mem_nil, or_false] at hw
  rcases hw with rfl | rfl | rfl | rfl
  · exact .inl ⟨hkey, h.type.symm.trans hfind⟩
  · exact .inr (.inl ⟨hkey, h.isRequired.symm.trans hfind⟩)
  · obtain ⟨hobject, heq⟩ := Option.ite_none_right_eq_some.mp (h.properties.symm.trans hfind)
    exact .inr (.inr (.inl ⟨hkey, hobject, (Option.some.inj heq).symm⟩))
  · obtain ⟨harray, heq⟩ := Option.ite_none_right_eq_some.mp (h.items.symm.trans hfind)
    exact .inr (.inr (.inr ⟨hkey, harray, (Option.some.inj heq).symm⟩))

theorem declares {v : Sample} (hv : v ∈ vs) : Declares ms v.type := by
  have hmem : v.type ∈ types vs := Sample.mem_types.mpr ⟨v, hv, rfl⟩
  have htype := h.type
  rcases hts : types vs with _ | ⟨t, _ | ⟨u, ts⟩⟩
  · simp [hts] at hmem
  · rw [hts] at hmem htype
    exact ⟨_, htype, .inl (by rw [List.mem_singleton.mp hmem])⟩
  · rw [hts] at hmem htype
    exact ⟨_, htype, .inr ⟨_, rfl, List.mem_map_of_mem hmem⟩⟩

theorem nodup_keys : (Members.keys ps).Nodup := h.keys ▸ Sample.nodup_fieldKeys vs

theorem isText_of_mem_properties (hvs : ∀ v ∈ vs, v.IsJson) {m : Scalar × Value} (hm : m ∈ ps) :
    m.1.IsText :=
  Sample.isText_of_mem_fieldKeys hvs (h.keys ▸ List.mem_map_of_mem hm)

theorem find?_properties (hobject : "object" ∈ types vs) :
    Members.find? (.str "properties") ms = some (.object ps) := by
  rw [h.properties, if_pos hobject]

theorem find?_items (harray : "array" ∈ types vs) : Members.find? (.str "items") ms = some it := by
  rw [h.items, if_pos harray]

/-- What is said of the same samples is said with properties of the same keys. -/
theorem exists_same_key {required' : List Scalar} {ns qs : Members} {it' : Value}
    (h' : Outline required' vs ns qs it') {m : Scalar × Value} (hm : m ∈ ps) :
    ∃ n ∈ qs, n.1 = m.1 := by
  have hmem : m.1 ∈ Members.keys qs := by
    rw [h'.keys, ← h.keys]
    exact List.mem_map_of_mem hm
  exact List.mem_map.mp hmem

end Outline

theorem Variant.FitsIn.samples_ne_nil {g : Variant} {ws : List Sample} (h : g.FitsIn ws) :
    g.samples ≠ [] := by
  intro hnil
  have hone := h.oneType
  simp [hnil] at hone

/-! ### No samples -/

/-- Before any sample the node is empty. -/
theorem describes_empty : Describes (.node []) [] (.object []) := by
  have outline : Outline [] [] [] [] .null :=
    ⟨by simp [Members.keys], by simp [Members.keys], rfl, rfl, rfl, rfl, rfl⟩
  exact .node outline (by simp) (by simp)

theorem describes_items_empty : Describes .items [] (.object []) :=
  .uniform (by simp) describes_empty

theorem Outline.eq_nil {ms ps : Members} {it : Value} (h : Outline [] [] ms ps it) : ms = [] := by
  have hnone : ∀ w ∈ nodeWords, Members.find? (.str w) ms = none := by
    intro w hw
    simp only [nodeWords, List.mem_cons, List.not_mem_nil, or_false] at hw
    rcases hw with rfl | rfl | rfl | rfl
    · simpa [typeEntry] using h.type
    · exact h.isRequired
    · simpa using h.properties
    · simpa using h.items
  have hkeys : Members.keys ms = [] := by
    refine List.eq_nil_iff_forall_not_mem.mpr fun k hk => ?_
    obtain ⟨w, hw, rfl⟩ := h.known k hk
    exact (Members.find?_eq_none_iff ⟨w, rfl⟩).mp (hnone w hw) hk
  exact List.map_eq_nil_iff.mp hkeys

theorem eq_empty_of_describes_node {node : Value} (h : Describes (.node []) [] node) :
    node = .object [] := by
  cases h with
  | node outline _ _ => rw [outline.eq_nil]

theorem eq_empty_of_describes_items {node : Value} (h : Describes .items [] node) :
    node = .object [] := by
  cases h with
  | uniform _ describes => exact eq_empty_of_describes_node describes
  | mixed many _ _ _ _ => simp at many

theorem exists_of_describes {place : Place} {vs : List Sample} {node : Value}
    (h : Describes place vs node) : ∃ ms, node = .object ms := by
  cases h with
  | node _ _ _ => exact ⟨_, rfl⟩
  | uniform _ describes => cases describes with | node _ _ _ => exact ⟨_, rfl⟩
  | mixed _ _ _ _ _ => exact ⟨_, rfl⟩

theorem Describes.exists_outline {required : List Scalar} {vs : List Sample} {ms : Members}
    (h : Describes (.node required) vs (.object ms)) :
    ∃ ps it, Outline required vs ms ps it := by
  cases h with
  | node outline _ _ => exact ⟨_, _, outline⟩

/-! ### Acceptance -/

/-- The names that a node requires at its place are carried by the objects among some samples. -/
def Place.Honest : Place → List Sample → Prop
  | .node required, vs => ∀ v ∈ vs, v.type = "object" → ∀ k ∈ required, k ∈ v.keys
  | .items, _ => True

theorem honest_commonKeys (ws : List Sample) : (Place.node (commonKeys ws)).Honest ws :=
  fun v hv _ _ hk => Sample.mem_commonKeys hk v hv

theorem requiresAmong_of_outline {required : List Scalar} {vs : List Sample} {ms ps : Members}
    {it : Value} (h : Outline required vs ms ps it) {keys : List Scalar}
    (hkeys : ∀ k ∈ required, k ∈ keys) : RequiresAmong ms keys := by
  intro r hr
  rw [h.isRequired] at hr
  cases required with
  | nil => simp [requiredEntry] at hr
  | cons k ks =>
      obtain rfl := Option.some.inj hr
      refine ⟨_, rfl, fun n hn => ?_⟩
      obtain ⟨l, hl, rfl⟩ := List.mem_map.mp hn
      exact ⟨l, hkeys l hl, rfl⟩

/-- A node accepts every sample that it describes. -/
theorem Describes.accepts {place : Place} {vs : List Sample} {node : Value}
    (h : Describes place vs node) (hvs : ∀ v ∈ vs, v.IsJson) (honest : place.Honest vs) :
    ∀ v ∈ vs, Accepts node v := by
  induction h with
  | @node required vs ms ps it outline _ _ ihFields ihElements =>
      intro v hv
      have hdeclares : Declares ms v.type := outline.declares hv
      -- The fields and the elements were widened by the parts of `v`, among others.
      cases hvs v hv with
      | scalar s => exact .plain outline.find?_oneOf hdeclares rfl
      | @array xs elements =>
          have htype : "array" ∈ types vs := Sample.mem_types.mpr ⟨_, hv, rfl⟩
          refine .array outline.find?_oneOf hdeclares (outline.find?_items htype) fun x hx => ?_
          exact ihElements htype (fun w hw => Sample.isJson_of_mem_elementsOf hvs hw) trivial x
            (List.mem_flatMap.mpr ⟨_, hv, hx⟩)
      | @object fields text unique values =>
          have htype : "object" ∈ types vs := Sample.mem_types.mpr ⟨_, hv, rfl⟩
          have hkey : ∀ m ∈ fields, m.1 ∈ Members.keys ps := by
            intro m hm
            rw [outline.keys]
            exact Sample.mem_fieldKeys.mpr ⟨_, hv, List.mem_map_of_mem hm⟩
          refine .object outline.find?_oneOf hdeclares (outline.find?_properties htype) ?_ ?_
            (requiresAmong_of_outline outline (honest _ hv rfl))
          · intro m hm
            exact Members.find?_isSome_of_mem (text m hm) (hkey m hm)
          · intro m hm p hp
            have hmem : (m.1, p) ∈ ps := Members.mem_of_find? (text m hm) hp
            have hvalue : m.2 ∈ valuesAt m.1 vs :=
              List.mem_filterMap.mpr ⟨_, hv, Sample.at?_of_mem unique hm⟩
            exact ihFields _ hmem (fun w hw => Sample.isJson_of_mem_valuesAt hvs hw)
              (by simp [Place.Honest]) m.2 hvalue
  | uniform _ _ ih => exact ih hvs (honest_commonKeys _)
  | mixed _ _ _ covers _ _ =>
      intro v hv
      obtain ⟨g, hg, haccepts⟩ := covers v hv
      exact .variant (by simp) (List.mem_map_of_mem hg) haccepts

/-! ### Form -/

/-- A scalar or a list of scalars, which is what types and required names are written as. -/
inductive IsFlat : Value → Prop where
  | scalar (s : Scalar) : IsFlat (.scalar s)
  | array (ks : List Scalar) : IsFlat (.array (ks.map .scalar))

theorem isFlat_of_typeEntry {ts : List String} {v : Value} (h : typeEntry ts = some v) :
    IsFlat v := by
  rcases ts with _ | ⟨t, _ | ⟨u, ts⟩⟩
  · simp [typeEntry] at h
  · obtain rfl := Option.some.inj h
    exact .scalar _
  · obtain rfl := Option.some.inj h
    have hmap : (t :: u :: ts).map Value.str = ((t :: u :: ts).map .str).map .scalar := by
      rw [List.map_map]
      rfl
    rw [hmap]
    exact .array _

theorem isFlat_of_requiredEntry {ks : List Scalar} {v : Value} (h : requiredEntry ks = some v) :
    IsFlat v := by
  cases ks with
  | nil => simp [requiredEntry] at h
  | cons k ks =>
      obtain rfl := Option.some.inj h
      exact .array _

theorem IsFlat.isJson {v : Value} (h : IsFlat v) : v.IsJson := by
  cases h with
  | scalar s => exact .scalar s
  | array ks =>
      refine .array fun x hx => ?_
      obtain ⟨k, -, rfl⟩ := List.mem_map.mp hx
      exact .scalar k

/-- The names that a node requires at its place. -/
def Place.names : Place → List Scalar
  | .node required => required
  | .items => []

section Hereditary

variable {K : Scalar → Prop} {P : Value → Prop} (hP : Value.Hereditary K P)

include hP

theorem hereditary_typeEntry {ts : List String} {v : Value} (h : typeEntry ts = some v) : P v := by
  rcases ts with _ | ⟨t, _ | ⟨u, ts⟩⟩
  · simp [typeEntry] at h
  · obtain rfl := Option.some.inj h
    exact hP.text t
  · obtain rfl := Option.some.inj h
    refine (hP.array_iff _).mpr fun x hx => ?_
    obtain ⟨s, -, rfl⟩ := List.mem_map.mp hx
    exact hP.text s

theorem hereditary_requiredEntry {ks : List Scalar} {v : Value} (hks : ∀ k ∈ ks, P (.scalar k))
    (h : requiredEntry ks = some v) : P v := by
  cases ks with
  | nil => simp [requiredEntry] at h
  | cons k ks =>
      obtain rfl := Option.some.inj h
      refine (hP.array_iff _).mpr fun x hx => ?_
      obtain ⟨l, hl, rfl⟩ := List.mem_map.mp hx
      exact hks l hl

theorem Variant.FitsIn.hereditary_required {g : Variant} {ws : List Sample} (h : g.FitsIn ws)
    (hws : ∀ w ∈ ws, w.IsJson) : ∀ k ∈ g.required, P (.scalar k) := by
  intro k hk
  rcases h.isRequired with hnone | hcommon
  · rw [hnone] at hk
    cases hk
  · have hnames : ∀ v ∈ g.samples, v.IsJson := fun v hv => hws v (h.among hv)
    exact hP.scalar (hP.key_of_isText (Sample.isText_of_mem_commonKeys hnames (hcommon ▸ hk)))

/-- A property that depends on the parts of a value alone, and that texts have, holds of every inferred node: but
for texts it holds nothing. -/
theorem Describes.hereditary {place : Place} {vs : List Sample} {node : Value} (h : Describes place vs node)
    (hvs : ∀ v ∈ vs, v.IsJson) (hnames : ∀ k ∈ place.names, P (.scalar k)) : P node := by
  induction h with
  | @node required vs ms ps it outline _ elements ihFields ihElements =>
      have text : ∀ m ∈ ms, m.1.IsText := fun m hm => outline.isText_of_mem hm
      refine (hP.object_iff ms).mpr ⟨fun m hm => hP.key_of_isText (text m hm),
        Members.distinct_of_text text outline.unique, fun m hm => ?_⟩
      rcases outline.cases_of_mem hm with ⟨-, htype⟩ | ⟨-, hrequired⟩ | ⟨-, -, hps⟩ | ⟨-, harray, hit⟩
      · exact hereditary_typeEntry hP htype
      · exact hereditary_requiredEntry hP hnames hrequired
      · have names : ∀ n ∈ ps, n.1.IsText := fun n hn => outline.isText_of_mem_properties hvs hn
        rw [hps]
        refine (hP.object_iff ps).mpr ⟨fun n hn => hP.key_of_isText (names n hn),
          Members.distinct_of_text names outline.nodup_keys, fun n hn => ?_⟩
        exact ihFields n hn (fun w hw => Sample.isJson_of_mem_valuesAt hvs hw) (by simp [Place.names])
      · rw [hit]
        exact ihElements harray (fun w hw => Sample.isJson_of_mem_elementsOf hvs hw) (by simp [Place.names])
  | uniform _ _ ih =>
      exact ih hvs fun k hk => hP.scalar (hP.key_of_isText (Sample.isText_of_mem_commonKeys hvs hk))
  | mixed _ fits _ _ _ ih =>
      refine hP.append hP.empty rfl ((hP.array_iff _).mpr fun x hx => ?_)
      obtain ⟨g, hg, rfl⟩ := List.mem_map.mp hx
      exact ih g hg (fun v hv => hvs v ((fits g hg).among hv)) ((fits g hg).hereditary_required hP hvs)

end Hereditary

/-- Inferred nodes are JSON, as the samples are. -/
theorem Describes.isJson {place : Place} {vs : List Sample} {node : Value}
    (h : Describes place vs node) (hvs : ∀ v ∈ vs, v.IsJson) : node.IsJson :=
  h.hereditary Value.hereditary_isJson hvs fun k _ => .scalar k

/-- Inferred nodes have a finished form. -/
theorem Describes.exists_nodeForm {place : Place} {vs : List Sample} {node : Value}
    (h : Describes place vs node) : ∃ node', nodeForm node = .ok node' := by
  induction h with
  | @node required vs ms ps it outline _ elements ihFields ihElements =>
      have hrequired : ∃ r, requiredForm ms = .ok r := by
        cases required with
        | nil => exact ⟨_, requiredForm_of_none outline.isRequired⟩
        | cons k ks => exact ⟨_, requiredForm_of_array outline.isRequired⟩
      have hproperties : ∃ p, propertiesForm ms = .ok p := by
        obtain ⟨qs, hqs⟩ := exists_eachForm ihFields
        rw [propertiesForm_eq, outline.properties]
        split_ifs <;> simp [hqs]
      have hitems : ∃ i, itemsForm ms = .ok i := by
        rw [itemsForm_eq, outline.items]
        split_ifs with harray
        · obtain ⟨node, hnode⟩ := ihElements harray
          simp only [hnode, ok_bind, pure_eq_ok]
          by_cases htruthy : it.truthy
          · exact ⟨_, if_pos htruthy⟩
          · exact ⟨_, if_neg htruthy⟩
        · exact ⟨[], rfl⟩
      obtain ⟨r, hr⟩ := hrequired
      obtain ⟨p, hp⟩ := hproperties
      obtain ⟨i, hi⟩ := hitems
      exact ⟨_, nodeForm_eq_ok hr hp hi (variantsForm_of_none outline.find?_oneOf)⟩
  | uniform _ _ ih => exact ih
  | @mixed ws variants _ _ _ _ _ ih =>
      obtain ⟨ys, hys⟩ : ∃ ys, allForms (variants.map Variant.node) = .ok ys := by
        refine exists_allForms fun x hx => ?_
        obtain ⟨g, hg, rfl⟩ := List.mem_map.mp hx
        exact ih g hg
      exact ⟨_, nodeForm_set hys⟩

end SchemaForge.Inference
