import SchemaForge.Proofs.Schema.Rewritten
import SchemaForge.Schema.Normal

/-!
The normal form of a node, keyword by keyword: what stands at one keyword is replaced, and a keyword may be
added at the end. A document in normal form is JSON if the document was, and well kept if it was.
-/

namespace SchemaForge.Schema

open Members (mapAt mapPicked)

/-! ### Keywords -/

theorem find?_ensure (name w : String) (v : Value) (ms : Members) :
    Members.find? (.str w) (ensure name v ms) =
      (Members.find? (.str w) ms).or (if name = w then some v else none) := by
  rw [ensure]
  split
  · next hhas =>
      by_cases hw : name = w
      · subst hw
        obtain ⟨u, hu⟩ := Option.isSome_iff_exists.mp hhas
        rw [hu]
        rfl
      · rw [if_neg hw, Option.or_none]
  · rw [Members.find?_append, Members.find?_singleton_str]

theorem find?_ensure_of_ne {name w : String} (hw : name ≠ w) (v : Value) (ms : Members) :
    Members.find? (.str w) (ensure name v ms) = Members.find? (.str w) ms := by
  rw [find?_ensure, if_neg hw, Option.or_none]

theorem hereditary_ensure {K : Scalar → Prop} {P : Value → Prop} (hP : Value.Hereditary K P)
    {name : String} {v : Value} {ms : Members} (hms : P (.object ms)) (hv : P v) : P (.object (ensure name v ms)) := by
  rw [ensure]
  split
  · exact hms
  · next hhas => exact hP.append hms (Bool.eq_false_iff.mpr hhas) hv

def normalizedProperties : Value → Value
  | .object ps => .object (normalizeEach ps)
  | _ => .object []

def normalizedItems : Value → Value
  | .object (m :: ms) => normalize (.object (m :: ms))
  | _ => stringNode

def normalizedVariants : Value → Value
  | .array xs => .array (normalizeAll xs)
  | v => v

theorem normalizeProperties_eq_mapAt (ms : Members) :
    normalizeProperties ms = mapAt "properties" normalizedProperties ms := by
  induction ms with
  | nil => simp [normalizeProperties, mapAt]
  | cons m ms ih =>
      obtain ⟨k, v⟩ := m
      rw [normalizeProperties.eq_def]
      cases v <;> by_cases hk : k = .str "properties" <;>
        simp [hk, mapAt, normalizedProperties, ih]

theorem normalizedProperties_object (ps : Members) :
    normalizedProperties (.object ps) = .object (mapPicked isContainer normalize ps) := by
  rw [normalizedProperties, normalizeEach_eq_map]
  rfl

theorem normalizedProperties_of_not_isObject {v : Value} (hv : ∀ ps, v ≠ .object ps) :
    normalizedProperties v = .object [] := by
  cases v with
  | object ps => exact absurd rfl (hv ps)
  | _ => rfl

theorem normalizedItems_cases (v : Value) :
    normalizedItems v = normalize v ∨ normalizedItems v = stringNode := by
  rcases v with s | xs | _ | ⟨m, ms⟩
  · exact .inr rfl
  · exact .inr rfl
  · exact .inr rfl
  · exact .inl rfl

theorem normalizeItems_eq_mapAt (ms : Members) :
    normalizeItems ms = mapAt "items" normalizedItems ms := by
  induction ms with
  | nil => simp [normalizeItems, mapAt]
  | cons m ms ih =>
      obtain ⟨k, v⟩ := m
      rw [normalizeItems.eq_def]
      by_cases hk : k = .str "items"
      · rcases v with s | xs | _ | ⟨n, ns⟩ <;> simp [hk, mapAt, normalizedItems, ih]
      · simp [hk, mapAt, ih]

theorem normalizeVariants_eq_mapAt (ms : Members) :
    normalizeVariants ms = mapAt "oneOf" normalizedVariants ms := by
  induction ms with
  | nil => simp [normalizeVariants, mapAt]
  | cons m ms ih =>
      obtain ⟨k, v⟩ := m
      rw [normalizeVariants.eq_def]
      cases v <;> by_cases hk : k = .str "oneOf" <;>
        simp [hk, mapAt, normalizedVariants, ih]

/-! ### Nodes -/

inductive NormalCase (ms : Members) : Members → Prop where
  | object (isObject : Members.find? (.str "type") ms = some (.str "object")) :
      NormalCase ms (ensure "properties" (.object []) (mapAt "properties" normalizedProperties ms))
  | array (isArray : Members.find? (.str "type") ms = some (.str "array")) :
      NormalCase ms (ensure "items" stringNode (mapAt "items" normalizedItems ms))
  | implied {ps : Members} (noType : Members.find? (.str "type") ms = none)
      (properties : Members.find? (.str "properties") ms = some (.object ps)) :
      NormalCase ms (ensure "type" (.str "object") (mapAt "properties" normalizedProperties ms))
  | variants {xs : List Value} (set : Members.find? (.str "oneOf") ms = some (.array xs)) :
      NormalCase ms (mapAt "oneOf" normalizedVariants ms)
  | text : NormalCase ms (ensure "type" (.str "string") ms)
  | other : NormalCase ms ms

theorem normalize_object (ms : Members) :
    ∃ ns, normalize (.object ms) = .object ns ∧ NormalCase ms ns := by
  rw [normalize]
  split
  · next htype => exact ⟨_, by rw [normalizeProperties_eq_mapAt], .object htype⟩
  · next htype => exact ⟨_, by rw [normalizeItems_eq_mapAt], .array htype⟩
  · exact ⟨_, rfl, .other⟩
  · next htype =>
      split
      · next hps => exact ⟨_, by rw [normalizeProperties_eq_mapAt], .implied htype hps⟩
      · split
        · next hset => exact ⟨_, by rw [normalizeVariants_eq_mapAt], .variants hset⟩
        · exact ⟨_, rfl, .text⟩

/-! ### Missing keywords -/

section Ensure

variable {f : Value → Value} {ms ns : Members} (h : Rewrites f ms ns)

include h

theorem Rewrites.ensure_type (v : Value) : Rewrites f ms (ensure "type" v ns) := by
  refine h.of_agree fun w hw => ?_
  have hne : "type" ≠ w := by
    rintro rfl
    simp at hw
  rw [find?_ensure_of_ne hne]

theorem Rewrites.ensure_items : Rewrites f ms (ensure "items" stringNode ns) where
  properties := by
    rw [find?_ensure_of_ne (by simp)]
    exact h.properties
  items := by
    intro w hw
    rw [find?_ensure, if_pos rfl] at hw
    rcases Option.or_eq_some_iff.mp hw with hfind | ⟨-, hnew⟩
    · exact h.items w hfind
    · exact .inl (Option.some.inj hnew).symm
  required := by
    rw [find?_ensure_of_ne (by simp)]
    exact h.required

theorem Rewrites.ensure_properties : Rewrites f ms (ensure "properties" (.object []) ns) where
  properties := by
    rw [find?_ensure, if_pos rfl]
    rcases h.properties with heq | ⟨ps, picked, hps, hqs⟩ | ⟨hnone, hnew⟩
    · rw [heq]
      cases Members.find? (.str "properties") ms with
      | none => exact .inr (.inr ⟨by simp, rfl⟩)
      | some v => exact .inl rfl
    · exact .inr (.inl ⟨ps, picked, hps, by rw [hqs]; rfl⟩)
    · exact .inr (.inr ⟨hnone, by rw [hnew]; rfl⟩)
  items := by
    rw [find?_ensure_of_ne (by simp)]
    exact h.items
  required := by
    rw [find?_ensure_of_ne (by simp)]
    exact h.required

end Ensure

theorem rewrites_normalize (ms : Members) :
    ∃ ns, normalize (.object ms) = .object ns ∧ Rewrites normalize ms ns := by
  obtain ⟨ns, heq, hcase⟩ := normalize_object ms
  refine ⟨ns, heq, ?_⟩
  have hproperties : Rewrites normalize ms (mapAt "properties" normalizedProperties ms) :=
    rewrites_properties normalizedProperties_object
      (fun _ hv => .inr (normalizedProperties_of_not_isObject hv)) ms
  cases hcase with
  | object _ => exact hproperties.ensure_properties
  | array _ => exact (rewrites_items normalizedItems_cases ms).ensure_items
  | implied _ _ => exact hproperties.ensure_type _
  | variants _ =>
      refine (rewrites_self _ ms).of_agree fun w hw => ?_
      have hne : w ≠ "oneOf" := by
        rintro rfl
        simp at hw
      rw [Members.find?_mapAt, if_neg hne]
  | text => exact (rewrites_self _ ms).ensure_type _
  | other => exact rewrites_self _ ms

theorem normalize_of_not_isObject {v : Value} (hv : ∀ ms, v ≠ .object ms) : normalize v = v := by
  cases v with
  | object ms => exact absurd rfl (hv ms)
  | _ => rw [normalize]; simp

theorem isObject_normalize (v : Value) : (normalize v).isObject = v.isObject := by
  cases v with
  | object ms =>
      obtain ⟨ns, heq, -⟩ := normalize_object ms
      rw [heq]
      rfl
  | _ => rw [normalize_of_not_isObject (by simp)]

/-- The normal form of a well-kept document is well kept. -/
theorem WellKept.normalize {doc : Value} (hdoc : doc.IsJson) (h : WellKept doc) :
    WellKept (Schema.normalize doc) :=
  h.rewrite rewrites_normalize (fun _ => normalize_of_not_isObject) hdoc

/-! ### Nodes of a type -/

theorem exists_of_ofType {type shape : Value} (h : ofType type = .ok shape) :
    ∃ t : SchemaType, shape = t.shape := by
  obtain ⟨k, -, h⟩ := bind_eq_ok_iff.mp h
  split at h
  · split at h
    · next t _ => exact ⟨t, (Except.ok.inj h).symm⟩
    · contradiction
  · contradiction

theorem exists_shape (t : SchemaType) : ∃ ms, t.shape = .object ms := by
  cases t <;> exact ⟨_, rfl⟩

/-! ### Hereditary properties -/

section Hereditary

variable {K : Scalar → Prop} {P : Value → Prop}

/-- The induction for whatever rewrites the nodes of a document: a step may use that the parts of what
stands in a node are rewritten well. -/
theorem hereditary_rewrite {f : Value → Value} (hother : ∀ v, (∀ ms, v ≠ .object ms) → f v = v)
    (hnode : ∀ ms, P (.object ms) →
      (∀ w v, Members.find? (.str w) ms = some v → v.WithParts fun u => P u → P (f u)) →
      P (f (.object ms))) {doc : Value} (h : P doc) : P (f doc) := by
  refine Value.part_induction (P := fun v => P v → P (f v)) ?_ ?_ doc h
  · intro v hv h
    rwa [hother v hv]
  · intro ms ih h
    exact hnode ms h fun w v hv => ih _ (Members.mem_of_find? ⟨w, rfl⟩ hv)

variable (hP : Value.Hereditary K P)

include hP

theorem hereditary_stringNode : P stringNode :=
  (hP.object_iff _).mpr ⟨by simpa using hP.key _, by decide, by simpa using hP.text _⟩

theorem hereditary_shape (t : SchemaType) : P t.shape := by
  cases t with
  | array =>
      exact (hP.object_iff _).mpr ⟨by simpa using ⟨hP.key _, hP.key _⟩, by decide,
        by simpa using ⟨hP.text _, hereditary_stringNode hP⟩⟩
  | object =>
      exact (hP.object_iff _).mpr ⟨by simpa using ⟨hP.key _, hP.key _⟩, by decide,
        by simpa using ⟨hP.text _, hP.empty⟩⟩
  | _ =>
      exact (hP.object_iff _).mpr ⟨by simpa using hP.key _, by decide, by simpa using hP.text _⟩

theorem hereditary_mapPicked_of_parts {picked : Value → Bool} {f : Value → Value} {ps : Members}
    (hps : P (.object ps)) (parts : (Value.object ps).WithParts fun u => P u → P (f u)) :
    P (.object (mapPicked picked f ps)) := by
  obtain ⟨-, -, values⟩ := (hP.object_iff ps).mp hps
  exact Members.hereditary_mapPicked hP hps fun m hm => parts.members ps rfl m hm (values m hm)

/-- The normal form of a document holds nothing that the document did not, but texts and nodes of texts. -/
theorem hereditary_normalize {doc : Value} (h : P doc) : P (normalize doc) := by
  refine hereditary_rewrite (fun _ => normalize_of_not_isObject) (fun ms hms parts => ?_) h
  obtain ⟨ns, heq, hcase⟩ := normalize_object ms
  have hproperties : P (.object (mapAt "properties" normalizedProperties ms)) := by
    refine Members.hereditary_mapAt hP hms fun v hv => ?_
    by_cases hobject : ∃ ps, v = .object ps
    · obtain ⟨ps, rfl⟩ := hobject
      rw [normalizedProperties_object]
      exact hereditary_mapPicked_of_parts hP (hP.of_find? hms hv) (parts _ _ hv)
    · rw [normalizedProperties_of_not_isObject fun ps hps => hobject ⟨ps, hps⟩]
      exact hP.empty
  rw [heq]
  cases hcase with
  | object _ => exact hereditary_ensure hP hproperties hP.empty
  | array _ =>
      refine hereditary_ensure hP (Members.hereditary_mapAt hP hms fun v hv => ?_)
        (hereditary_stringNode hP)
      rcases normalizedItems_cases v with hitems | hitems
      · exact hitems ▸ (parts _ _ hv).self (hP.of_find? hms hv)
      · exact hitems ▸ hereditary_stringNode hP
  | implied _ _ => exact hereditary_ensure hP hproperties (hP.text _)
  | variants _ =>
      refine Members.hereditary_mapAt hP hms fun v hv => ?_
      have hv' := hP.of_find? hms hv
      cases v with
      | array xs =>
          rw [normalizedVariants, normalizeAll_eq_map]
          refine (hP.array_iff _).mpr fun y hy => ?_
          obtain ⟨x, hx, rfl⟩ := List.mem_map.mp hy
          exact (parts _ _ hv).elements xs rfl x hx ((hP.array_iff xs).mp hv' x hx)
      | _ => exact hv'
  | text => exact hereditary_ensure hP hms (hP.text _)
  | other => exact hms

/-- Nor does the switch for required fields bring anything in but the names of fields. -/
theorem hereditary_switchRequired {doc : Value} (h : P doc) (required : Bool) :
    P (switchRequired required doc) := by
  refine hereditary_rewrite (fun _ => switchRequired_of_not_isObject required)
    (fun ms hms parts => ?_) h
  rcases switchRequired_cases required ms with ⟨ps, -, hps, heq⟩ | ⟨-, heq⟩ | heq
  · have hfields := hP.of_find? hms hps
    have hmapped : P (.object (mapAt "properties" (switchedProperties required) ms)) := by
      refine Members.hereditary_mapAt hP hms fun v hv => ?_
      rw [hps] at hv
      cases hv
      rw [switchedProperties_object]
      exact hereditary_mapPicked_of_parts hP hfields (parts _ _ hps)
    rw [heq, switchNames]
    split
    · refine hP.insert hmapped (.inl (hP.key _)) ((hP.array_iff _).mpr fun x hx => ?_)
      obtain ⟨m, hm, rfl⟩ := List.mem_map.mp hx
      exact hP.scalar (((hP.object_iff ps).mp hfields).1 m hm)
    · exact hP.of_sublist hmapped List.filter_sublist
  · rw [heq]
    exact Members.hereditary_mapAt hP hms fun v hv => (parts _ _ hv).self (hP.of_find? hms hv)
  · rwa [heq]

end Hereditary

theorem isJson_stringNode : stringNode.IsJson := hereditary_stringNode Value.hereditary_isJson

theorem isJson_normalize {doc : Value} (h : doc.IsJson) : (normalize doc).IsJson :=
  hereditary_normalize Value.hereditary_isJson h

theorem isJson_switchRequired {doc : Value} (h : doc.IsJson) (required : Bool) :
    (switchRequired required doc).IsJson :=
  hereditary_switchRequired Value.hereditary_isJson h required

end SchemaForge.Schema
