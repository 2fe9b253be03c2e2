import SchemaForge.Proofs.Inference.Merging

/-!
Widening a node by a scalar or an object. What one sample does to a node is the same whether the node is
there yet or not, so a missing node counts as the empty one, and a sample of any kind is one step of the
same function. From the steps at the values of an object follows the step at the object.
-/

namespace SchemaForge.Inference

open Sample (types fieldKeys valuesAt elementsOf)

def widenNode (node : Value) (v : Sample) : Except Fault Value :=
  if v.isContainer then widen (some node) v
  else do
    let ms ← node.members
    let type ← mergeTypes ((Members.find? (.str "type") ms).getD .null) (.str v.type)
    return .object (Members.insert (.str "type") type ms)

/-- What widening by a sample has to do to any node on its own: it succeeds, and the node then describes
the sample too. -/
def Widens (v : Sample) : Prop :=
  ∀ {required : List Scalar} {vs : List Sample} {node : Value}, (∀ u ∈ vs, u.IsJson) →
    Describes (.node required) vs node →
      ∃ node', widenNode node v = .ok node' ∧ Describes (.node required) (vs ++ [v]) node'

/-! ### One way of widening -/

theorem format_of_isJson {v : Sample} (hv : v.IsJson) : v.format = none := by
  cases hv with
  | scalar s => cases s <;> rfl
  | array _ => rfl
  | object _ _ _ => rfl

theorem widen_none {v : Sample} (hv : v.IsJson) : widen none v = widenNode (.object []) v := by
  cases hv with
  | scalar s => cases s <;> rfl
  | array _ =>
      simp only [widenNode, Sample.isContainer, if_true, widen]
      rfl
  | object _ _ _ =>
      simp only [widenNode, Sample.isContainer, if_true, widen]
      rfl

theorem widenProperties_cons {k : Scalar} {v : Sample} (rest : List (Scalar × Sample))
    {props : Members} (hv : v.IsJson) (hnull : Members.find? k props ≠ some .null) :
    widenProperties ((k, v) :: rest) props =
      (do
        let node ← widenNode ((Members.find? k props).getD (.object [])) v
        widenProperties rest (Members.insert k node props)) := by
  rw [widenProperties]
  by_cases hc : v.isContainer
  · have hexisting : existing k props = Members.find? k props := by
      rw [existing]
      split
      · next h => exact absurd h hnull
      · rfl
    rw [if_pos hc, hexisting]
    cases Members.find? k props with
    | none => rw [widen_none hv, Option.getD_none]
    | some node => rw [widenNode, if_pos hc, Option.getD_some]
  · rw [if_neg hc, widenScalar, format_of_isJson hv]
    cases Members.find? k props with
    | none =>
        rw [widenNode, if_neg hc]
        rfl
    | some node =>
        rw [widenNode, if_neg hc, Option.getD_some]
        simp only [bind_assoc, pure_bind]
        rfl

/-! ### Scalars and the type -/

section OneMore

variable {required : List Scalar} {vs : List Sample} {ms ps : Members} {it : Value}
  (h : Outline required vs ms ps it) (v : Sample)

include h

theorem Outline.mergeTypes :
    ∃ t, mergeTypes ((Members.find? (.str "type") ms).getD .null) (.str v.type) = .ok t ∧
      typeEntry (types (vs ++ [v])) = some t := by
  rw [h.type]
  exact mergeTypes_typeEntry vs v

theorem Outline.known_insert {w : String} (hw : w ∈ nodeWords) (x : Value) :
    ∀ k ∈ Members.keys (Members.insert (.str w) x ms), ∃ u ∈ nodeWords, k = .str u := by
  intro k hk
  rcases (Members.mem_keys_insert ⟨w, rfl⟩).mp hk with rfl | hk
  · exact ⟨w, hw, rfl⟩
  · exact h.known k hk

end OneMore

theorem opened_eq_ok {kind : Kind} {ms : Members} {t : Value}
    (h : mergeTypes ((Members.find? (.str "type") ms).getD .null) (.str kind.name) = .ok t) :
    opened kind (some (.object ms)) = .ok (Members.insert (.str "type") t ms) := by
  simp [opened, h]

theorem mem_types_append_singleton {t : String} {vs : List Sample} {v : Sample}
    (h : v.type ≠ t) : t ∈ types (vs ++ [v]) ↔ t ∈ types vs := by
  simp [Sample.mem_types, or_and_right, exists_or, h]

theorem mem_types_append_self (vs : List Sample) (v : Sample) : v.type ∈ types (vs ++ [v]) :=
  Sample.mem_types.mpr ⟨v, by simp, rfl⟩

theorem Outline.append_scalar {required : List Scalar} {vs : List Sample} {ms ps : Members}
    {it t : Value} {v : Sample} (h : Outline required vs ms ps it) (hobject : v.type ≠ "object")
    (harray : v.type ≠ "array") (ht : typeEntry (types (vs ++ [v])) = some t) :
    Outline required (vs ++ [v]) (Members.insert (.str "type") t ms) ps it where
  unique := Members.nodup_keys_insert ⟨_, rfl⟩ h.unique
  known := h.known_insert (by decide) t
  type := by simp [ht]
  isRequired := by simpa using h.isRequired
  properties := by simpa [mem_types_append_singleton hobject] using h.properties
  keys := by rw [h.keys, Sample.fieldKeys_append_of_keys_eq_nil vs (Sample.keys_eq_nil hobject)]
  items := by simpa [mem_types_append_singleton harray] using h.items

theorem widens_plain {v : Sample} (hv : v.isContainer = false) : Widens v := by
  intro required vs node hvs h
  have hobject : v.type ≠ "object" := Sample.type_ne_of_plain hv (by decide)
  have harray : v.type ≠ "array" := Sample.type_ne_of_plain hv (by decide)
  cases h with
  | @node _ _ ms ps it outline fields elements =>
      obtain ⟨t, hmerge, ht⟩ := outline.mergeTypes v
      refine ⟨.object (Members.insert (.str "type") t ms), ?_, ?_⟩
      · simp [widenNode, hv, hmerge]
      · refine .node (outline.append_scalar hobject harray ht) ?_ ?_
        · intro m hm
          rw [Sample.valuesAt_append_of_not_mem vs (by simp [Sample.keys_eq_nil hobject])]
          exact fields m hm
        · intro hmem
          have hold := elements ((mem_types_append_singleton harray).mp hmem)
          simpa [Sample.elementsOf_append, elementsOf, Sample.elements_eq_nil harray] using hold

/-! ### Objects -/

/-- What properties say about the samples that their node was widened by. -/
structure PropertiesDescribe (vs : List Sample) (ps : Members) : Prop where
  keys : Members.keys ps = fieldKeys vs
  fields : ∀ m ∈ ps, Describes (.node []) (valuesAt m.1 vs) m.2

/-- The node at a key before the key's value is taken in; a key that is new has the empty one. -/
theorem PropertiesDescribe.node_at {vs : List Sample} {ps : Members}
    (h : PropertiesDescribe vs ps) {k : Scalar} (hk : k.IsText) :
    Describes (.node []) (valuesAt k vs) ((Members.find? k ps).getD (.object [])) := by
  cases hfind : Members.find? k ps with
  | none =>
      have hmem : k ∉ fieldKeys vs := h.keys ▸ (Members.find?_eq_none_iff hk).mp hfind
      rw [Sample.valuesAt_eq_nil hmem]
      exact describes_empty
  | some p => exact h.fields _ (Members.mem_of_find? hk hfind)

theorem PropertiesDescribe.find?_ne_null {vs : List Sample} {ps : Members}
    (h : PropertiesDescribe vs ps) {k : Scalar} (hk : k.IsText) :
    Members.find? k ps ≠ some .null := by
  intro hnull
  have hnode := h.node_at hk
  rw [hnull] at hnode
  obtain ⟨ms, heq⟩ := exists_of_describes hnode
  simp at heq

/-- One more member of an object: its value widens the node at its key. -/
theorem PropertiesDescribe.append_member {vs : List Sample} {fields : List (Scalar × Sample)}
    {ps : Members} (h : PropertiesDescribe (vs ++ [.object fields]) ps) {k : Scalar} {v : Sample}
    {node : Value} (hk : k.IsText) (hnew : k ∉ fields.map (·.1))
    (hnode : Describes (.node []) (valuesAt k (vs ++ [.object fields]) ++ [v]) node) :
    PropertiesDescribe (vs ++ [.object (fields ++ [(k, v)])]) (Members.insert k node ps) where
  keys := by rw [Members.keys_insert hk, Sample.fieldKeys_append_member, h.keys]
  fields := by
    intro m hm
    have hnodup : (Members.keys ps).Nodup := h.keys ▸ Sample.nodup_fieldKeys _
    rcases Members.mem_insert hk hnodup hm with rfl | ⟨hm, hne⟩
    · rwa [Sample.valuesAt_append_member_self vs hnew]
    · rw [Sample.valuesAt_append_member_of_ne vs fields hne]
      exact h.fields m hm

theorem isJson_of_append {fields rest : List (Scalar × Sample)}
    (h : (Sample.object (fields ++ rest)).IsJson) : (Sample.object fields).IsJson := by
  cases h with
  | object text unique values =>
      rw [List.map_append] at unique
      exact .object (fun m hm => text m (List.mem_append_left _ hm))
        (List.nodup_append.mp unique).1 fun m hm => values m (List.mem_append_left _ hm)

/-- The members of an object widen the properties one after the other. -/
theorem widenProperties_describes {vs : List Sample} (hvs : ∀ v ∈ vs, v.IsJson)
    {rest : List (Scalar × Sample)} (hwidens : ∀ m ∈ rest, Widens m.2) :
    ∀ {fields : List (Scalar × Sample)} {ps : Members},
      (Sample.object (fields ++ rest)).IsJson → PropertiesDescribe (vs ++ [.object fields]) ps →
        ∃ ps', widenProperties rest ps = .ok ps' ∧
          PropertiesDescribe (vs ++ [.object (fields ++ rest)]) ps' := by
  induction rest with
  | nil =>
      intro fields ps _ h
      exact ⟨ps, by rw [widenProperties], by simpa using h⟩
  | cons m rest ih =>
      intro fields ps hjson h
      obtain ⟨k, v⟩ := m
      -- The member moves from the rest to the fields that the last object has so far.
      have hsplit : (Sample.object ((fields ++ [(k, v)]) ++ rest)).IsJson := by simpa using hjson
      have hprefix : (Sample.object (fields ++ [(k, v)])).IsJson := isJson_of_append hsplit
      obtain ⟨hk, hv, hnew⟩ : k.IsText ∧ v.IsJson ∧ k ∉ fields.map (·.1) := by
        cases hprefix with
        | object text unique values =>
            have hmem : (k, v) ∈ fields ++ [(k, v)] := by simp
            rw [List.map_append] at unique
            refine ⟨text _ hmem, values _ hmem, fun hold => ?_⟩
            exact (List.nodup_append.mp unique).2.2 k hold k (by simp) rfl
      have hsamples : ∀ u ∈ vs ++ [.object fields], u.IsJson := by
        intro u hu
        rcases List.mem_append.mp hu with hu | hu
        · exact hvs u hu
        · exact List.mem_singleton.mp hu ▸ isJson_of_append hprefix
      obtain ⟨node, hnode, hdescribes⟩ := hwidens _ List.mem_cons_self
        (fun u hu => Sample.isJson_of_mem_valuesAt hsamples hu) (h.node_at hk)
      obtain ⟨ps', hps', hrest⟩ := ih (fun n hn => hwidens n (List.mem_cons_of_mem _ hn))
        hsplit (h.append_member hk hnew hdescribes)
      refine ⟨ps', ?_, by simpa using hrest⟩
      rw [widenProperties_cons rest hv (h.find?_ne_null hk), hnode, ok_bind, hps']

theorem openProperties_eq {ms ps : Members} (fields : List (Scalar × Sample)) {p : Prop}
    [Decidable p]
    (h : Members.find? (.str "properties") ms = if p then some (.object ps) else none)
    (hnil : ¬ p → ps = []) : openProperties ms fields = .ok (some ps) := by
  rw [openProperties, h]
  by_cases hp : p
  · simp [hp]
  · simp [hp, hnil hp]

theorem Outline.append_object {required : List Scalar} {vs : List Sample} {ms ps qs : Members}
    {it t : Value} {fields : List (Scalar × Sample)} (h : Outline required vs ms ps it)
    (ht : typeEntry (types (vs ++ [.object fields])) = some t)
    (hkeys : Members.keys qs = fieldKeys (vs ++ [.object fields])) :
    Outline required (vs ++ [.object fields])
      (Members.insert (.str "properties") (.object qs) (Members.insert (.str "type") t ms)) qs
      it where
  unique := Members.nodup_keys_insert ⟨_, rfl⟩ (Members.nodup_keys_insert ⟨_, rfl⟩ h.unique)
  known := by
    intro k hk
    rcases (Members.mem_keys_insert ⟨_, rfl⟩).mp hk with rfl | hk
    · exact ⟨"properties", by decide, rfl⟩
    · exact h.known_insert (by decide) t k hk
  type := by simp [ht]
  isRequired := by simpa using h.isRequired
  properties := by
    have hmem : "object" ∈ types (vs ++ [.object fields]) := mem_types_append_self vs _
    simp [hmem]
  keys := hkeys
  items := by
    have hne : (Sample.object fields).type ≠ "array" := by simp
    simpa [mem_types_append_singleton hne] using h.items

theorem widens_object {fields : List (Scalar × Sample)} (hjson : (Sample.object fields).IsJson)
    (hwidens : ∀ m ∈ fields, Widens m.2) : Widens (.object fields) := by
  intro required vs node hvs h
  cases h with
  | @node _ _ ms ps it outline describes elements =>
      obtain ⟨t, hmerge, ht⟩ := outline.mergeTypes (.object fields)
      -- An object without members adds nothing, so the properties describe it before they are widened.
      have hps : PropertiesDescribe (vs ++ [.object []]) ps := by
        refine ⟨?_, fun m hm => ?_⟩
        · rw [outline.keys, Sample.fieldKeys_append_of_keys_eq_nil vs rfl]
        · rw [Sample.valuesAt_append_of_not_mem vs (by simp)]
          exact describes m hm
      have hstart : (Sample.object ([] ++ fields)).IsJson := by simpa using hjson
      obtain ⟨qs, hqs, hdescribes⟩ := widenProperties_describes hvs hwidens hstart hps
      have hopened : opened .object (some (.object ms)) =
          .ok (Members.insert (.str "type") t ms) := opened_eq_ok hmerge
      have hopen : openProperties (Members.insert (.str "type") t ms) fields = .ok (some ps) := by
        have hfind : Members.find? (.str "properties") (Members.insert (.str "type") t ms) =
            if "object" ∈ types vs then some (.object ps) else none := by
          simpa using outline.properties
        refine openProperties_eq fields hfind fun hnone => ?_
        have hkeys : Members.keys ps = [] := by
          rw [outline.keys, Sample.fieldKeys_eq_nil_of_types hnone]
        exact List.map_eq_nil_iff.mp hkeys
      refine ⟨_, ?_, .node (outline.append_object ht hdescribes.keys) hdescribes.fields ?_⟩
      · simp only [widenNode, Sample.isContainer, if_true, widen, hopened, hopen, hqs, ok_bind,
          pure_eq_ok]
      · intro hmem
        have hne : (Sample.object fields).type ≠ "array" := by simp
        have hold := elements ((mem_types_append_singleton hne).mp hmem)
        simpa [Sample.elementsOf_append, elementsOf, Sample.elements] using hold

end SchemaForge.Inference
