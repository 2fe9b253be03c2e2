import SchemaForge.Proofs.Inference.Exactness
import SchemaForge.Proofs.Schema.Replacement

/-!
Inferred schemas are in normal form. A node that was widened by some samples states one type with the
keyword that the type calls for, or a list of types, which normalization passes over; and its elements that
differ in type are variants, each of which states its own type. Only a null on its own has no such schema:
its root counts as an object, without properties.
-/

namespace SchemaForge.Inference

open Sample (types valuesAt elementsOf)
open Schema (IsNormal IsNormalNode IsNormalFields IsNormalProperty IsNormalSet isNormal_object_iff)

/-! ### Keywords once each -/

/-- What stands at a keyword that occurs once is what is found there. -/
theorem eq_of_mem_of_find? {ms : Members} (unique : (Members.keys ms).Nodup) {word : String}
    {v w : Value} (hfind : Members.find? (.str word) ms = some v) (hw : (.str word, w) ∈ ms) :
    w = v :=
  Option.some.inj ((Members.find?_of_mem ⟨_, rfl⟩ unique hw).symm.trans hfind)

/-! ### Nodes -/

section Node

variable {ns : Members} (unique : (Members.keys ns).Nodup)

include unique

theorem isNormal_of_properties {ps : Members}
    (isObject : Members.find? (.str "type") ns = some (.str "object"))
    (properties : Members.find? (.str "properties") ns = some (.object ps))
    (fields : ∀ m ∈ ps, IsNormalProperty m.2) : IsNormal (.object ns) := by
  refine isNormal_object_iff.mpr (.object isObject (by rw [Members.has, properties]; rfl) ?_)
  intro v hv
  rw [eq_of_mem_of_find? unique properties hv]
  exact ⟨ps, rfl, fields⟩

theorem isNormal_of_items {item : Value}
    (isArray : Members.find? (.str "type") ns = some (.str "array"))
    (items : Members.find? (.str "items") ns = some item) (node : IsNormalNode item) :
    IsNormal (.object ns) := by
  refine isNormal_object_iff.mpr (.array isArray (by rw [Members.has, items]; rfl) ?_)
  intro v hv
  rwa [eq_of_mem_of_find? unique items hv]

theorem isNormal_of_variants {ys : List Value}
    (noType : Members.find? (.str "type") ns = none)
    (noProperties : Members.find? (.str "properties") ns = none)
    (set : Members.find? (.str "oneOf") ns = some (.array ys)) (variants : ∀ y ∈ ys, IsNormal y) :
    IsNormal (.object ns) := by
  refine isNormal_object_iff.mpr (.variants noType (by simp [noProperties]) set ?_)
  intro v hv xs hxs
  rw [eq_of_mem_of_find? unique set hv] at hxs
  cases hxs
  exact variants

end Node

theorem isNormal_of_type {ns : Members} {t : Value}
    (type : Members.find? (.str "type") ns = some t) (notObject : t ≠ .str "object")
    (notArray : t ≠ .str "array") : IsNormal (.object ns) :=
  isNormal_object_iff.mpr (.typed type notObject notArray)

/-- Items are in normal form if they are for elements that were met; otherwise they are a text. -/
theorem isNormalNode_of_finishedItems {ws : List Sample} {it w : Value}
    (hdescribes : Describes .items ws it) (h : FinishedItems it w)
    (hmet : ws ≠ [] → nodeForm it = .ok w → IsNormal w) : IsNormalNode w := by
  refine ⟨exists_of_finishedItems hdescribes h, ?_⟩
  rw [FinishedItems] at h
  split at h
  · next htruthy =>
      refine hmet (fun hnil => ?_) h
      subst hnil
      rw [eq_empty_of_describes_items hdescribes] at htruthy
      simp [Value.truthy] at htruthy
  · exact h ▸ Schema.isNormalNode_stringNode.2

/-- A node that describes some samples has a finished form in normal form. -/
theorem Describes.isNormal {place : Place} {vs : List Sample} {node node' : Value}
    (h : Describes place vs node) (hvs : ∀ v ∈ vs, v.IsJson) (isMet : vs ≠ [])
    (hform : nodeForm node = .ok node') : IsNormal node' := by
  induction h generalizing node' with
  | @node required vs ms ps it outline _ elements ihFields ihElements =>
      obtain ⟨ns, rfl, hfin⟩ := exists_of_nodeForm hform
      have unique := nodup_keys_of_nodeForm hform
      have htype : Members.find? (.str "type") ns = typeEntry (types vs) :=
        hfin.type.trans outline.type
      -- What the type calls for is there if the type is the only one.
      rcases hts : types vs with _ | ⟨t, _ | ⟨u, ts⟩⟩
      · exact absurd (Sample.types_eq_nil_iff.mp hts) isMet
      · rw [hts] at htype
        by_cases hobject : t = "object"
        · subst hobject
          obtain ⟨qs, hqs, hall⟩ :=
            hfin.find?_properties (outline.find?_properties (hts ▸ List.mem_singleton_self _))
          refine isNormal_of_properties unique htype hqs fun n hn _ => ?_
          obtain ⟨m, hm, -, hform⟩ := exists_left_of_mem hall hn
          have hkey : m.1 ∈ Sample.fieldKeys vs := outline.keys ▸ List.mem_map_of_mem hm
          exact ihFields m hm (fun w hw => Sample.isJson_of_mem_valuesAt hvs hw)
            (Sample.valuesAt_ne_nil hvs hkey) hform
        · by_cases harray : t = "array"
          · subst harray
            have hmem : "array" ∈ types vs := hts ▸ List.mem_singleton_self _
            obtain ⟨item, hitem, hfinished⟩ := hfin.find?_items (outline.find?_items hmem)
            refine isNormal_of_items unique htype hitem ?_
            exact isNormalNode_of_finishedItems (elements hmem) hfinished fun hne hform =>
              ihElements hmem (fun w hw => Sample.isJson_of_mem_elementsOf hvs hw) hne hform
          · exact isNormal_of_type htype (by simpa using hobject) (by simpa using harray)
      · rw [hts] at htype
        exact isNormal_of_type htype (by simp) (by simp)
  | uniform _ _ ih => exact ih hvs isMet hform
  | @mixed ws variants _ fits _ _ _ ih =>
      obtain ⟨ns, rfl, hfin⟩ := exists_of_nodeForm hform
      obtain ⟨_, hset, xs, ys, heq, rfl, hall⟩ := hfin.variants _ rfl
      cases heq
      have hproperties : Members.find? (.str "properties") ns = none :=
        eq_none_of_rel_none hfin.properties
      refine isNormal_of_variants (nodup_keys_of_nodeForm hform) hfin.type hproperties hset
        fun y hy => ?_
      obtain ⟨x, hx, hform⟩ := exists_left_of_mem hall hy
      obtain ⟨g, hg, rfl⟩ := List.mem_map.mp hx
      exact ih g hg (fun v hv => hvs v ((fits g hg).among hv)) (fits g hg).samples_ne_nil hform

/-! ### The root -/

theorem nodup_keys_heading_append (kind : Kind) (title : Option String) {word : String}
    (hword : word ∉ ["type", "title"]) (v : Value) :
    (Members.keys (heading kind title ++ [(.str word, v)])).Nodup := by
  obtain ⟨htype, htitle⟩ : word ≠ "type" ∧ word ≠ "title" := by simpa using hword
  unfold heading
  split
  · simp [Members.keys, Ne.symm htype]
  · split <;> simp [Members.keys, Ne.symm htype, Ne.symm htitle]

/-- The finished node of a sample on its own is in normal form. -/
theorem Inferred.isNormal {v : Sample} {ms ns : Members} (h : Inferred v ms ns) (hv : v.IsJson) :
    IsNormal (.object ns) :=
  h.describes.isNormal (by simpa using hv) (List.cons_ne_nil _ _) h.form

theorem isNormal_root_scalar {s : Scalar} (hnull : s ≠ .null) (title : Option String) :
    IsNormal (.object (heading (Sample.scalar s).kind title)) := by
  have hroot := find?_heading (Sample.scalar s).kind title (w := "type") (by decide)
  have hobject : (Sample.scalar s).type ≠ "object" := Sample.type_ne_of_plain rfl (by decide)
  have harray : (Sample.scalar s).type ≠ "array" := Sample.type_ne_of_plain rfl (by decide)
  rw [if_pos rfl, rootKind_scalar hnull] at hroot
  exact isNormal_of_type hroot (by simpa using hobject) (by simpa using harray)

theorem isNormal_entitle {items : Members} (hitems : IsNormal (.object items))
    (title : Option String) : IsNormal (.object (entitle title items (heading .array title))) := by
  have hplain : ∀ is, IsNormal (.object is) →
      IsNormal (.object (heading .array title ++ [(.str "items", .object is)])) := by
    intro is his
    have hroot := find?_heading_append .array title "items" (.object is)
    exact isNormal_of_items (nodup_keys_heading_append _ _ (by decide) _) (hroot _ (by decide))
      (hroot _ (by decide)) ⟨⟨is, rfl⟩, his⟩
  unfold entitle
  split
  · exact hplain items hitems
  · next t =>
      split
      · exact hplain items hitems
      · exact Schema.isNormal_insert (by decide) _
          (hplain _ (Schema.isNormal_insert (by decide) _ hitems))

/-- The schema of a JSON sample is in normal form, with whatever title. -/
theorem exists_isNormal_inferSchema {v : Sample} (hv : v.IsJson) (hnull : v ≠ .scalar .null)
    (title : Option String) :
    ∃ ms, inferSchema v title = .ok (.object ms) ∧ IsNormal (.object ms) := by
  cases hv with
  | scalar s =>
      exact ⟨_, rfl, isNormal_root_scalar (fun h => hnull (by rw [h])) title⟩
  | @array xs elements =>
      have hjson : (Sample.array xs).IsJson := .array elements
      obtain ⟨ms, ns, hinferred⟩ := exists_inferred hjson
      obtain ⟨_, _, outline⟩ := hinferred.describes.exists_outline
      obtain ⟨items, hitems, heq⟩ := hinferred.exists_items
      have hnode := Schema.isNormalNode_items (hinferred.isNormal hjson)
        (hinferred.finished.type.trans outline.type) hitems
      exact ⟨_, heq title, isNormal_entitle hnode.2 title⟩
  | @object fields text unique values =>
      have hjson : (Sample.object fields).IsJson := .object text unique values
      obtain ⟨ms, ns, hinferred⟩ := exists_inferred hjson
      obtain ⟨_, _, outline⟩ := hinferred.describes.exists_outline
      obtain ⟨ps, hps, heq⟩ := hinferred.exists_properties
      obtain ⟨qs, hqs, hfields⟩ := Schema.exists_properties_of_isNormal (hinferred.isNormal hjson)
        (hinferred.finished.type.trans outline.type)
      rw [hps] at hqs
      cases hqs
      have hroot := find?_heading_append .object title "properties" (.object ps)
      exact ⟨_, heq title, isNormal_of_properties (nodup_keys_heading_append _ _ (by decide) _)
        (hroot _ (by decide)) (hroot _ (by decide)) hfields⟩

end SchemaForge.Inference
