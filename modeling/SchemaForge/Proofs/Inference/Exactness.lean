import SchemaForge.Proofs.Inference.Soundness

/-!
Exactness of inference: away from sets of variants, an inferred node says about the samples that are met at
its place neither more nor less than their types, the keys of the objects among them, and, for elements,
the keys that all of them carry. A place is given by the steps that lead to it from the root, by a key of
the properties or to the items, and the samples that are met there are found by the same steps.
-/

namespace SchemaForge.Inference

open Sample (types fieldKeys valuesAt elementsOf commonKeys)

/-! ### Places -/

inductive Step where
  | field (k : Scalar)
  | items
  deriving DecidableEq

namespace Step

def node? : Step → Value → Option Value
  | .field k, .object ms =>
      match Members.find? (.str "properties") ms with
      | some (.object ps) => Members.find? k ps
      | _ => none
  | .items, .object ms =>
      match Members.find? (.str "items") ms with
      | some (.object is) => if Members.has (.str "oneOf") is then none else some (.object is)
      | _ => none
  | _, _ => none

/-- The samples that a step leads to. -/
def samples : Step → List Sample → List Sample
  | .field k, vs => valuesAt k vs
  | .items, vs => elementsOf vs

end Step

def walk? (node : Value) (path : List Step) : Option Value :=
  path.foldlM (fun n s => s.node? n) node

/-- The samples that some steps lead to. -/
def samplesAlong (vs : List Sample) (path : List Step) : List Sample :=
  path.foldl (fun vs s => s.samples vs) vs

/-- What the node of the samples `vs` says, where `last` is the step that leads to it. Only elements
have required names, and none unless all of them are objects. -/
structure Exact (last : Option Step) (vs : List Sample) (ms : Members) : Prop where
  missing : vs = [] → Value.object ms = Schema.stringNode
  type : vs ≠ [] → Members.find? (.str "type") ms = typeEntry (types vs)
  properties : "object" ∈ types vs →
    ∃ ps, Members.find? (.str "properties") ms = some (.object ps) ∧ Members.keys ps = fieldKeys vs
  noProperties : "object" ∉ types vs → Members.find? (.str "properties") ms = none
  items : "array" ∈ types vs →
    ∃ is, Members.find? (.str "items") ms = some (.object is) ∧
      (Members.has (.str "oneOf") is ↔ 2 ≤ (types (elementsOf vs)).length)
  noItems : "array" ∉ types vs → Members.find? (.str "items") ms = none
  required : Members.find? (.str "required") ms =
    if last = some .items then requiredEntry (commonKeys vs) else none
  noSet : Members.find? (.str "oneOf") ms = none

/-! ### Nodes of one place -/

/-- A finished node of some samples, which is a text for elements that are missing. -/
inductive States : List Scalar → List Sample → Value → Prop where
  | missing : States [] [] Schema.stringNode
  | node {required : List Scalar} {vs : List Sample} {ms ns : Members} (isMet : vs ≠ [])
      (describes : Describes (.node required) vs (.object ms)) (finished : FinishedMembers ms ns) :
      States required vs (.object ns)

theorem States.exists_members {required : List Scalar} {vs : List Sample} {node : Value}
    (h : States required vs node) :
    ∃ ms, node = .object ms ∧ Members.find? (.str "oneOf") ms = none := by
  cases h with
  | missing => exact ⟨_, rfl, by decide⟩
  | node _ describes finished =>
      obtain ⟨_, _, outline⟩ := describes.exists_outline
      exact ⟨_, rfl, finished.noVariants outline.find?_oneOf⟩

/-- The finished form of a node that describes some samples. -/
theorem Describes.states {required : List Scalar} {vs : List Sample} {node node' : Value}
    (h : Describes (.node required) vs node) (isMet : vs ≠ []) (hform : nodeForm node = .ok node') :
    States required vs node' := by
  obtain ⟨ms, rfl⟩ := exists_of_describes h
  obtain ⟨ns, rfl, hfin⟩ := exists_of_nodeForm hform
  exact .node isMet h hfin

theorem typeEntry_eq_none_iff {ts : List String} : typeEntry ts = none ↔ ts = [] := by
  rcases ts with _ | ⟨t, _ | ⟨u, ts⟩⟩ <;> simp [typeEntry]

theorem eq_nil_of_describes_empty {ws : List Sample} (h : Describes .items ws (.object [])) :
    ws = [] := by
  cases h with
  | uniform few describes =>
      obtain ⟨_, _, outline⟩ := describes.exists_outline
      exact Sample.types_eq_nil_iff.mp (typeEntry_eq_none_iff.mp outline.type.symm)

/-- Finished items are a set of variants if there are elements of several types, and else the node of
their elements. -/
theorem cases_finishedItems {ws : List Sample} {it w : Value} (hdescribes : Describes .items ws it)
    (h : FinishedItems it w) :
    2 ≤ (types ws).length ∧ (∃ is, w = .object is ∧ Members.has (.str "oneOf") is = true) ∨
      (types ws).length ≤ 1 ∧ States (commonKeys ws) ws w := by
  rw [FinishedItems] at h
  split at h
  · next htruthy =>
      cases hdescribes with
      | uniform few describes =>
          refine .inr ⟨few, describes.states ?_ h⟩
          rintro rfl
          rw [eq_empty_of_describes_node describes] at htruthy
          simp [Value.truthy] at htruthy
      | mixed many _ _ _ _ =>
          obtain ⟨ns, rfl, hfin⟩ := exists_of_nodeForm h
          obtain ⟨w, hw, -⟩ := hfin.variants _ rfl
          exact .inl ⟨many, ns, rfl, by rw [Members.has, hw]; rfl⟩
  · next htruthy =>
      obtain ⟨ms, rfl⟩ := exists_of_describes hdescribes
      have hnil : ms = [] := by simpa [Value.truthy] using htruthy
      subst hnil
      rw [eq_nil_of_describes_empty hdescribes, h]
      exact .inr ⟨by simp, .missing⟩

/-! ### One step -/

/-- The names that the node after a step requires. -/
def Step.required : Step → List Sample → List Scalar
  | .field _, _ => []
  | .items, ws => commonKeys ws

theorem States.field {required : List Scalar} {vs : List Sample} {node child : Value} {k : Scalar}
    (hvs : ∀ v ∈ vs, v.IsJson) (h : States required vs node)
    (hchild : (Step.field k).node? node = some child) : States [] (valuesAt k vs) child := by
  cases h with
  | missing => simp [Step.node?, Schema.stringNode, SchemaType.shape, Members.find?] at hchild
  | @node _ _ ms ns isMet describes finished =>
      cases describes with
      | @node _ _ _ ps it outline fields _ =>
          simp only [Step.node?] at hchild
          split at hchild
          · next qs hqs =>
              obtain ⟨w, hw, ps', qs', rfl, hqs', hall⟩ :=
                exists_of_rel_some_right (hqs ▸ finished.properties)
              cases hqs'
              have hproperties := outline.properties.symm.trans hw
              split at hproperties
              · cases hproperties
                obtain ⟨p, hp, hform⟩ :=
                  exists_of_rel_some_right (hchild ▸ find?_finished hall k)
                have hmem := (Members.mem_of_find?_of_text
                  (fun m hm => outline.isText_of_mem_properties hvs hm) hp).2
                refine (fields _ hmem).states ?_ hform
                exact Sample.valuesAt_ne_nil hvs (outline.keys ▸ List.mem_map_of_mem hmem)
              · contradiction
          · contradiction

theorem States.items {required : List Scalar} {vs : List Sample} {node child : Value}
    (h : States required vs node) (hchild : Step.items.node? node = some child) :
    States (commonKeys (elementsOf vs)) (elementsOf vs) child := by
  cases h with
  | missing => simp [Step.node?, Schema.stringNode, SchemaType.shape, Members.find?] at hchild
  | @node _ _ ms ns isMet describes finished =>
      cases describes with
      | @node _ _ _ ps it outline _ elements =>
          simp only [Step.node?] at hchild
          split at hchild
          · next is his =>
              obtain ⟨w, hw, hfinished⟩ := exists_of_rel_some_right (his ▸ finished.items)
              have hitems := outline.items.symm.trans hw
              split at hitems
              · next harray =>
                  cases hitems
                  rcases cases_finishedItems (elements harray) hfinished with
                    ⟨-, _, heq, hset⟩ | ⟨-, hstates⟩
                  · cases heq
                    simp [hset] at hchild
                  · split at hchild
                    · contradiction
                    · rwa [← Option.some.inj hchild]
              · contradiction
          · contradiction

theorem States.step {required : List Scalar} {vs : List Sample} {node child : Value} {s : Step}
    (hvs : ∀ v ∈ vs, v.IsJson) (h : States required vs node) (hchild : s.node? node = some child) :
    States (s.required (s.samples vs)) (s.samples vs) child := by
  cases s with
  | field k => exact h.field hvs hchild
  | items => exact h.items hchild

theorem Step.isJson {s : Step} {vs : List Sample} (hvs : ∀ v ∈ vs, v.IsJson) :
    ∀ v ∈ s.samples vs, v.IsJson := by
  cases s with
  | field k => exact fun v hv => Sample.isJson_of_mem_valuesAt hvs hv
  | items => exact fun v hv => Sample.isJson_of_mem_elementsOf hvs hv

/-! ### Exactness -/

section Exactness

variable {required : List Scalar} {vs : List Sample} {ms ns ps : Members} {it : Value}
  (outline : Outline required vs ms ps it) (finished : FinishedMembers ms ns)

include outline finished

theorem find?_required_of_finished :
    Members.find? (.str "required") ns = requiredEntry required := by
  have hold := outline.isRequired
  cases required with
  | nil =>
      cases hfind : Members.find? (.str "required") ns with
      | none => rfl
      | some v =>
          obtain ⟨u, -, hu, -⟩ := finished.required v hfind
          simp [hu, requiredEntry] at hold
  | cons k ks => exact finished.keepsRequired _ _ hold

theorem find?_properties_of_finished (h : "object" ∈ types vs) :
    ∃ qs, Members.find? (.str "properties") ns = some (.object qs) ∧
      Members.keys qs = fieldKeys vs := by
  obtain ⟨qs, hqs, hall⟩ := finished.find?_properties (outline.find?_properties h)
  exact ⟨qs, hqs, (keys_finished hall).trans outline.keys⟩

theorem noProperties_of_finished (h : "object" ∉ types vs) :
    Members.find? (.str "properties") ns = none := by
  have hrel := finished.properties
  rw [outline.properties, if_neg h] at hrel
  exact eq_none_of_rel_none hrel

theorem noItems_of_finished (h : "array" ∉ types vs) :
    Members.find? (.str "items") ns = none := by
  have hrel := finished.items
  rw [outline.items, if_neg h] at hrel
  exact eq_none_of_rel_none hrel

theorem find?_items_of_finished (h : "array" ∈ types vs)
    (elements : Describes .items (elementsOf vs) it) :
    ∃ is, Members.find? (.str "items") ns = some (.object is) ∧
      (Members.has (.str "oneOf") is = true ↔ 2 ≤ (types (elementsOf vs)).length) := by
  obtain ⟨w, hw, hfinished⟩ := finished.find?_items (outline.find?_items h)
  rcases cases_finishedItems elements hfinished with ⟨many, is, rfl, hset⟩ | ⟨few, hstates⟩
  · exact ⟨is, hw, by simp [hset, many]⟩
  · obtain ⟨is, rfl, hset⟩ := hstates.exists_members
    have hfew : ¬ 2 ≤ (types (elementsOf vs)).length := by omega
    exact ⟨is, hw, by simp [Members.has, hset, hfew]⟩

end Exactness

/-- What a node says is exact. -/
theorem States.exact {last : Option Step} {required : List Scalar} {vs : List Sample} {ms : Members}
    (h : States required vs (.object ms))
    (hrequired : required = if last = some .items then commonKeys vs else []) :
    Exact last vs ms := by
  obtain ⟨_, heq, hset⟩ := h.exists_members
  cases heq
  generalize hnode : Value.object ms = node at h
  cases h with
  | missing =>
      cases hnode
      refine ⟨fun _ => rfl, by simp, by simp, fun _ => by decide, by simp, fun _ => by decide, ?_,
        hset⟩
      split <;> decide
  | @node _ _ ms' ns isMet describes finished =>
      cases hnode
      cases describes with
      | node outline _ elements =>
          refine ⟨fun hnil => absurd hnil isMet, fun _ => finished.type.trans outline.type,
            find?_properties_of_finished outline finished, noProperties_of_finished outline finished,
            fun h => find?_items_of_finished outline finished h (elements h),
            noItems_of_finished outline finished, ?_, hset⟩
          rw [find?_required_of_finished outline finished, hrequired]
          split <;> rfl

/-- What the steps of a walk preserve, at its end. -/
theorem States.walk {path : List Step} :
    ∀ {last : Option Step} {required : List Scalar} {vs : List Sample} {node child : Value},
      (∀ v ∈ vs, v.IsJson) → States required vs node →
        (required = if last = some .items then commonKeys vs else []) →
          walk? node path = some child →
            ∃ ms, child = .object ms ∧ Exact (path.getLast?.or last) (samplesAlong vs path) ms := by
  induction path with
  | nil =>
      intro last required vs node child _ h hrequired hwalk
      obtain ⟨ms, rfl, -⟩ := h.exists_members
      cases hwalk
      exact ⟨ms, rfl, h.exact hrequired⟩
  | cons s path ih =>
      -- What the node before the step requires does not matter below it.
      intro last required vs node child hvs h _ hwalk
      obtain ⟨next, hnext, hrest⟩ := Option.bind_eq_some_iff.mp hwalk
      have hrequired : s.required (s.samples vs) =
          if some s = some .items then commonKeys (s.samples vs) else [] := by
        cases s <;> rfl
      obtain ⟨ms, rfl, hexact⟩ :=
        ih (Step.isJson hvs) (h.step hvs hnext) hrequired hrest
      refine ⟨ms, rfl, ?_⟩
      have hlast : (s :: path).getLast?.or last = path.getLast?.or (some s) := by
        rw [List.getLast?_cons]
        cases path.getLast? <;> rfl
      rwa [hlast]

/-! ### The root -/

theorem FinishedMembers.congr {ms ns rs : Members} (h : FinishedMembers ms ns)
    (hagree : ∀ w ∈ acceptanceWords, Members.find? (.str w) rs = Members.find? (.str w) ns) :
    FinishedMembers ms rs := by
  have htype := hagree "type" (by decide)
  have hrequired := hagree "required" (by decide)
  have hproperties := hagree "properties" (by decide)
  have hitems := hagree "items" (by decide)
  have hset := hagree "oneOf" (by decide)
  exact ⟨htype.trans h.type, fun v hv => h.required v (hrequired.symm.trans hv),
    fun x xs hold => hrequired.trans (h.keepsRequired x xs hold), hproperties ▸ h.properties,
    hitems ▸ h.items, fun hnone => hset.trans (h.noVariants hnone),
    fun v hv => hset ▸ h.variants v hv⟩

/-- Without a title the root of a schema holds what the finished node of the sample holds. -/
theorem Inferred.root {v : Sample} {ms ns : Members} (h : Inferred v ms ns)
    (hnull : v ≠ .scalar .null) (hv : v.IsJson) :
    ∃ rs, inferSchema v none = .ok (.object rs) ∧
      ∀ w ∈ acceptanceWords, Members.find? (.str w) rs = Members.find? (.str w) ns := by
  obtain ⟨ps, it, outline⟩ := h.describes.exists_outline
  have htype : Members.find? (.str "type") ns = some (.str v.type) :=
    h.finished.type.trans outline.type
  have hrequired : Members.find? (.str "required") ns = none :=
    find?_required_of_finished outline h.finished
  have hset := h.find?_oneOf
  have hproperties : v.type ≠ "object" → Members.find? (.str "properties") ns = none :=
    fun hne => noProperties_of_finished outline h.finished (by simpa using hne.symm)
  have hitems : v.type ≠ "array" → Members.find? (.str "items") ns = none :=
    fun hne => noItems_of_finished outline h.finished (by simpa using hne.symm)
  -- A root is written anew, with a type and at most one keyword from the finished node.
  cases hv with
  | scalar s =>
      refine ⟨heading (Sample.scalar s).kind none, rfl, fun w hw => ?_⟩
      rw [find?_heading _ _ hw]
      have hname := rootKind_scalar fun h : s = .null => hnull (by rw [h])
      have hobject : (Sample.scalar s).type ≠ "object" := Sample.type_ne_of_plain rfl (by decide)
      have harray : (Sample.scalar s).type ≠ "array" := Sample.type_ne_of_plain rfl (by decide)
      simp only [acceptanceWords, List.mem_cons, List.not_mem_nil, or_false] at hw
      rcases hw with rfl | rfl | rfl | rfl | rfl <;>
        simp [hset, htype, hname, hproperties hobject, hrequired, hitems harray]
  | @array xs elements =>
      obtain ⟨is, his, heq⟩ := h.exists_items
      refine ⟨_, heq none, fun w hw => ?_⟩
      have hroot := find?_heading_append .array none "items" (.object is) w hw
      rw [entitle, hroot]
      simp only [acceptanceWords, List.mem_cons, List.not_mem_nil, or_false] at hw
      rcases hw with rfl | rfl | rfl | rfl | rfl <;>
        simp [hset, htype, hproperties (by simp), hrequired, his, Kind.rootKind, Kind.recorded,
          Kind.name]
  | @object fields text unique values =>
      obtain ⟨qs, hqs, heq⟩ := h.exists_properties
      refine ⟨_, heq none, fun w hw => ?_⟩
      have hroot := find?_heading_append .object none "properties" (.object qs) w hw
      rw [hroot]
      simp only [acceptanceWords, List.mem_cons, List.not_mem_nil, or_false] at hw
      rcases hw with rfl | rfl | rfl | rfl | rfl <;>
        simp [hset, htype, hqs, hrequired, hitems (by simp), Kind.rootKind, Kind.recorded,
          Kind.name]

/-- Inference is exact outside sets of variants: wherever a walk from the root ends, the node there says
exactly what the samples found by the same walk have in common. -/
theorem inferSchema_exact {v : Sample} (hv : v.IsJson) (hnull : v ≠ .scalar .null) :
    ∃ schema, inferSchema v none = .ok schema ∧
      ∀ path node, walk? schema path = some node →
        ∃ ms, node = .object ms ∧ Exact path.getLast? (samplesAlong [v] path) ms := by
  obtain ⟨ms, ns, hinferred⟩ := exists_inferred hv
  obtain ⟨rs, hrs, hagree⟩ := hinferred.root hnull hv
  refine ⟨_, hrs, fun path node hwalk => ?_⟩
  have hstates : States [] [v] (.object rs) :=
    .node (by simp) hinferred.describes (hinferred.finished.congr hagree)
  have hlast : ([] : List Scalar) =
      if (none : Option Step) = some .items then commonKeys [v] else [] := rfl
  obtain ⟨ms, rfl, hexact⟩ := hstates.walk (by simpa using hv) hlast hwalk
  exact ⟨ms, rfl, by simpa using hexact⟩

/-- Two arrays that feed the same items, one of which carries a key that the other does not. -/
theorem inferSchema_exact_spread :
    Exact (some .items) [.object [(.str "a", .scalar .null), (.str "b", .scalar .null)],
        .object [(.str "b", .scalar (.int 1))]]
      [(.str "type", .str "object"), (.str "required", .array [.str "b"]),
        (.str "properties", .object [(.str "a", .object [(.str "type", .str "null")]),
          (.str "b", .object [(.str "type", .array [.str "null", .str "number"])])])] := by
  have hjson : (Sample.array
      [.array [.object [(.str "a", .scalar .null), (.str "b", .scalar .null)]],
        .array [.object [(.str "b", .scalar (.int 1))]]]).IsJson := by
    simp
  obtain ⟨schema, heq, h⟩ := inferSchema_exact hjson (by simp)
  cases heq
  obtain ⟨ms, hms, hexact⟩ := h [.items, .items] _ rfl
  cases hms
  exact hexact

end SchemaForge.Inference
