import SchemaForge.Inference.Sample
import SchemaForge.Proofs.Lists
import SchemaForge.Proofs.Value.Json

/-!
What a list of samples has in common and what it is made of. Inference widens one schema by many
samples in turn, so its result at a place of the schema is a fact about the list of all samples that
were met at that place, in the order in which they were met: their types, the keys of the objects
among them, the keys that all of them carry, and the samples one step further down.
-/

namespace SchemaForge

namespace Sample

/-- A sample that JSON has a form for: no part of it is foreign, and the keys of each object are
texts that occur once. -/
inductive IsJson : Sample → Prop where
  | scalar (s : Scalar) : IsJson (.scalar s)
  | array {xs : List Sample} (elements : ∀ x ∈ xs, IsJson x) : IsJson (.array xs)
  | object {ms : List (Scalar × Sample)} (text : ∀ m ∈ ms, m.1.IsText)
      (unique : (ms.map (·.1)).Nodup) (values : ∀ m ∈ ms, IsJson m.2) : IsJson (.object ms)

/-- A JSON value is a JSON sample. -/
theorem isJson_ofValue {v : Value} (hv : v.IsJson) : (ofValue v).IsJson := by
  induction hv with
  | scalar s => exact .scalar s
  | @array xs _ ih =>
      rw [ofValue, ofElements_eq_map]
      refine .array fun x hx => ?_
      obtain ⟨y, hy, rfl⟩ := List.mem_map.mp hx
      exact ih y hy
  | @object ms text unique _ ih =>
      have hkeys : (ms.map fun m => (m.1, ofValue m.2)).map (·.1) = Members.keys ms := by
        rw [List.map_map]
        rfl
      rw [ofValue, ofMembers_eq_map]
      refine .object (fun m hm => ?_) (hkeys ▸ unique) fun m hm => ?_
      · obtain ⟨n, hn, rfl⟩ := List.mem_map.mp hm
        exact text n hn
      · obtain ⟨n, hn, rfl⟩ := List.mem_map.mp hm
        exact ih n hn

theorem ofValue_ne_null {v : Value} (hnull : v ≠ .null) : ofValue v ≠ .scalar .null := by
  cases v with
  | scalar s => simpa [ofValue] using hnull
  | array xs => simp [ofValue]
  | object ms => simp [ofValue]

/-- The name of the type under which a sample is recorded. -/
def type (v : Sample) : String := v.kind.recorded.name

def at? (k : Scalar) : Sample → Option Sample
  | .object ms => ms.lookup k
  | _ => none

def elements : Sample → List Sample
  | .array xs => xs
  | _ => []

/-- The types of some samples, in the order in which they are first seen. -/
def types (vs : List Sample) : List String := (vs.map type).eraseDups

/-- The keys of the objects among some samples, in the order in which they are first seen. -/
def fieldKeys (vs : List Sample) : List Scalar := (vs.flatMap keys).eraseDups

/-- The values at a key of those objects among some samples that have it. -/
def valuesAt (k : Scalar) (vs : List Sample) : List Sample := vs.filterMap (at? k)

def elementsOf (vs : List Sample) : List Sample := vs.flatMap elements

/-- The keys that all of some samples carry, in the order of the first one. -/
def commonKeys : List Sample → List Scalar
  | [] => []
  | v :: vs => v.keys.filter fun k => vs.all fun w => w.keys.contains k

/-! ### JSON -/

@[simp] theorem isJson_scalar (s : Scalar) : (Sample.scalar s).IsJson := .scalar s

@[simp] theorem isJson_array_iff {xs : List Sample} :
    (Sample.array xs).IsJson ↔ ∀ x ∈ xs, x.IsJson := by
  constructor
  · intro h
    cases h with
    | array elements => exact elements
  · exact .array

@[simp] theorem isJson_object_iff {ms : List (Scalar × Sample)} :
    (Sample.object ms).IsJson ↔
      (∀ m ∈ ms, m.1.IsText) ∧ (ms.map (·.1)).Nodup ∧ ∀ m ∈ ms, m.2.IsJson := by
  constructor
  · intro h
    cases h with
    | object text unique values => exact ⟨text, unique, values⟩
  · rintro ⟨text, unique, values⟩
    exact .object text unique values

/-! ### Types -/

@[simp] theorem type_object (ms : List (Scalar × Sample)) : (Sample.object ms).type = "object" := rfl

@[simp] theorem type_array (xs : List Sample) : (Sample.array xs).type = "array" := rfl

/-- The types of samples without parts. -/
def plainTypes : List String := ["null", "boolean", "number", "string"]

theorem type_mem_plainTypes {v : Sample} (h : v.isContainer = false) : v.type ∈ plainTypes := by
  rcases v with s | f | xs | ms
  · rcases s with _ | _ | _ | _ | _ <;> simp [plainTypes, type, kind, Kind.recorded, Kind.name]
  · cases f <;> simp [plainTypes, type, kind, Kind.recorded, Kind.name]
  · simp [isContainer] at h
  · simp [isContainer] at h

theorem type_ne_of_plain {v : Sample} (h : v.isContainer = false) {t : String}
    (ht : t ∉ plainTypes) : v.type ≠ t :=
  fun heq => ht (heq ▸ type_mem_plainTypes h)

theorem type_eq_object_iff {v : Sample} : v.type = "object" ↔ ∃ ms, v = .object ms := by
  constructor
  · intro h
    cases v with
    | object ms => exact ⟨ms, rfl⟩
    | array xs => simp at h
    | _ => exact absurd h (type_ne_of_plain rfl (by decide))
  · rintro ⟨ms, rfl⟩
    rfl

theorem type_eq_array_iff {v : Sample} : v.type = "array" ↔ ∃ xs, v = .array xs := by
  constructor
  · intro h
    cases v with
    | array xs => exact ⟨xs, rfl⟩
    | object ms => simp at h
    | _ => exact absurd h (type_ne_of_plain rfl (by decide))
  · rintro ⟨xs, rfl⟩
    rfl

theorem type_ne_empty (v : Sample) : v.type ≠ "" := by
  cases v with
  | array xs => simp
  | object ms => simp
  | _ => exact type_ne_of_plain rfl (by decide)

@[simp] theorem types_nil : types [] = [] := rfl

@[simp] theorem types_singleton (v : Sample) : types [v] = [v.type] := rfl

theorem mem_types {t : String} {vs : List Sample} : t ∈ types vs ↔ ∃ v ∈ vs, v.type = t := by
  simp [types]

theorem types_append_singleton (vs : List Sample) (v : Sample) :
    types (vs ++ [v]) = if v.type ∈ types vs then types vs else types vs ++ [v.type] := by
  simp [types, eraseDups_append_singleton]

theorem length_types_le_append (vs ws : List Sample) :
    (types vs).length ≤ (types (vs ++ ws)).length := by
  rw [types, types, List.map_append, List.eraseDups_append, List.length_append]
  omega

theorem types_subset_append (vs ws : List Sample) : types vs ⊆ types (vs ++ ws) := by
  intro t ht
  obtain ⟨v, hv, rfl⟩ := mem_types.mp ht
  exact mem_types.mpr ⟨v, List.mem_append_left _ hv, rfl⟩

/-- Samples of types that were seen before bring no types. -/
theorem types_append_of_mem {vs ws : List Sample} (h : ∀ w ∈ ws, w.type ∈ types vs) :
    types (vs ++ ws) = types vs := by
  induction ws using List.reverseRecOn with
  | nil => rw [List.append_nil]
  | append_singleton ws w ih =>
      have hrest := ih fun u hu => h u (List.mem_append_left _ hu)
      rw [← List.append_assoc, types_append_singleton, hrest, if_pos (h w (by simp))]

theorem nodup_types (vs : List Sample) : (types vs).Nodup := nodup_eraseDups _

theorem types_eq_nil_iff {vs : List Sample} : types vs = [] ↔ vs = [] := by
  rw [types, eraseDups_eq_nil_iff, List.map_eq_nil_iff]

theorem type_of_types_eq {t : String} {vs : List Sample} (h : types vs = [t]) {v : Sample}
    (hv : v ∈ vs) : v.type = t := by
  have hmem : v.type ∈ types vs := mem_types.mpr ⟨v, hv, rfl⟩
  rw [h] at hmem
  exact List.mem_singleton.mp hmem

theorem types_eq_singleton {t : String} {vs : List Sample} (hne : vs ≠ [])
    (h : ∀ v ∈ vs, v.type = t) : types vs = [t] := by
  have hall : ∀ u ∈ types vs, u = t := by
    intro u hu
    obtain ⟨v, hv, rfl⟩ := mem_types.mp hu
    exact h v hv
  -- With two types the list would hold `t` twice.
  have hnodup := nodup_types vs
  rcases hts : types vs with _ | ⟨u, _ | ⟨u', us⟩⟩
  · exact absurd (types_eq_nil_iff.mp hts) hne
  · rw [hall u (by simp [hts])]
  · rw [hts] at hnodup
    have hu : u = u' := (hall u (by simp [hts])).trans (hall u' (by simp [hts])).symm
    simp [hu] at hnodup

/-- All types under which samples are recorded. -/
def recordedTypes : List String := ["string", "number", "boolean", "null", "array", "object"]

theorem type_mem_recordedTypes (v : Sample) : v.type ∈ recordedTypes := by
  cases v with
  | array xs => simp [recordedTypes]
  | object ms => simp [recordedTypes]
  | _ =>
      have hplain : plainTypes ⊆ recordedTypes := by decide
      exact hplain (type_mem_plainTypes rfl)

theorem types_subset_recordedTypes (vs : List Sample) : types vs ⊆ recordedTypes := by
  intro t ht
  obtain ⟨v, -, rfl⟩ := mem_types.mp ht
  exact type_mem_recordedTypes v

/-! ### Keys -/

@[simp] theorem keys_object (ms : List (Scalar × Sample)) :
    (Sample.object ms).keys = ms.map (·.1) := rfl

theorem keys_eq_nil {v : Sample} (h : v.type ≠ "object") : v.keys = [] := by
  cases v with
  | object ms => simp at h
  | _ => rfl

theorem mem_fieldKeys {k : Scalar} {vs : List Sample} :
    k ∈ fieldKeys vs ↔ ∃ v ∈ vs, k ∈ v.keys := by
  simp [fieldKeys]

theorem nodup_fieldKeys (vs : List Sample) : (fieldKeys vs).Nodup := nodup_eraseDups _

theorem fieldKeys_append_of_keys_eq_nil (vs : List Sample) {v : Sample} (h : v.keys = []) :
    fieldKeys (vs ++ [v]) = fieldKeys vs := by
  simp [fieldKeys, h]

/-- One more member at the end of the last object adds its key, if the key is new. -/
theorem fieldKeys_append_member (vs : List Sample) (ms : List (Scalar × Sample)) (k : Scalar)
    (v : Sample) :
    fieldKeys (vs ++ [.object (ms ++ [(k, v)])]) =
      if k ∈ fieldKeys (vs ++ [.object ms]) then fieldKeys (vs ++ [.object ms])
      else fieldKeys (vs ++ [.object ms]) ++ [k] := by
  have hkeys : (vs ++ [Sample.object (ms ++ [(k, v)])]).flatMap keys =
      (vs ++ [Sample.object ms]).flatMap keys ++ [k] := by
    simp
  simp only [fieldKeys, hkeys, eraseDups_append_singleton, List.mem_eraseDups]

theorem fieldKeys_eq_nil_of_types {vs : List Sample} (h : "object" ∉ types vs) :
    fieldKeys vs = [] := by
  refine eraseDups_eq_nil_iff.mpr (List.flatMap_eq_nil_iff.mpr fun v hv => ?_)
  exact keys_eq_nil fun ht => h (mem_types.mpr ⟨v, hv, ht⟩)

theorem IsJson.isText_of_mem_keys {v : Sample} (hv : v.IsJson) {k : Scalar} (h : k ∈ v.keys) :
    k.IsText := by
  cases hv with
  | scalar s => simp [keys] at h
  | array _ => simp [keys] at h
  | object text _ _ =>
      obtain ⟨m, hm, rfl⟩ := List.mem_map.mp h
      exact text m hm

theorem IsJson.nodup_keys {v : Sample} (hv : v.IsJson) : v.keys.Nodup := by
  cases hv with
  | scalar s => exact List.nodup_nil
  | array _ => exact List.nodup_nil
  | object _ unique _ => exact unique

theorem isText_of_mem_fieldKeys {vs : List Sample} (hvs : ∀ v ∈ vs, v.IsJson) {k : Scalar}
    (h : k ∈ fieldKeys vs) : k.IsText := by
  obtain ⟨v, hv, hk⟩ := mem_fieldKeys.mp h
  exact (hvs v hv).isText_of_mem_keys hk

/-! ### Common keys -/

@[simp] theorem commonKeys_nil : commonKeys [] = [] := rfl

theorem mem_commonKeys {k : Scalar} {vs : List Sample} (h : k ∈ commonKeys vs) :
    ∀ v ∈ vs, k ∈ v.keys := by
  cases vs with
  | nil => simp
  | cons v vs => simpa [commonKeys] using h

/-- A further sample drops the common keys that it does not carry. -/
theorem commonKeys_append_singleton {vs : List Sample} (h : vs ≠ []) (w : Sample) :
    commonKeys (vs ++ [w]) = (commonKeys vs).filter fun k => w.keys.contains k := by
  cases vs with
  | nil => exact absurd rfl h
  | cons v vs => simp [commonKeys, List.filter_filter, Bool.and_comm]

/-- Further samples only drop common keys. -/
theorem commonKeys_append_subset {vs : List Sample} (h : vs ≠ []) (ws : List Sample) :
    commonKeys (vs ++ ws) ⊆ commonKeys vs := by
  induction ws using List.reverseRecOn with
  | nil => simp
  | append_singleton ws w ih =>
      rw [← List.append_assoc, commonKeys_append_singleton (by simp [h])]
      exact List.Subset.trans (List.filter_subset_self _) ih

/-- Samples that carry all common keys drop none. -/
theorem commonKeys_append_of_carries {vs ws : List Sample} (h : vs ≠ [])
    (hcarries : ∀ w ∈ ws, ∀ k ∈ commonKeys vs, k ∈ w.keys) :
    commonKeys (vs ++ ws) = commonKeys vs := by
  induction ws using List.reverseRecOn with
  | nil => rw [List.append_nil]
  | append_singleton ws w ih =>
      have hrest := ih fun u hu => hcarries u (List.mem_append_left _ hu)
      rw [← List.append_assoc, commonKeys_append_singleton (by simp [h]), hrest,
        List.filter_eq_self]
      exact fun k hk => List.contains_iff_mem.mpr (hcarries w (by simp) k hk)

theorem commonKeys_singleton (w : Sample) : commonKeys [w] = w.keys := by
  simp [commonKeys]

theorem commonKeys_eq_nil_of_mem {v : Sample} {vs : List Sample} (hv : v ∈ vs)
    (h : v.type ≠ "object") : commonKeys vs = [] := by
  refine List.eq_nil_iff_forall_not_mem.mpr fun k hk => ?_
  have hmem := mem_commonKeys hk v hv
  rw [keys_eq_nil h] at hmem
  exact List.not_mem_nil hmem

/-- Only objects carry keys, so samples of another type have none in common. -/
theorem commonKeys_eq_nil_of_type {t : String} {vs : List Sample} (h : ∀ v ∈ vs, v.type = t)
    (ht : t ≠ "object") : commonKeys vs = [] := by
  cases vs with
  | nil => rfl
  | cons v vs =>
      have hv : v ∈ v :: vs := List.mem_cons_self
      exact commonKeys_eq_nil_of_mem hv (h v hv ▸ ht)

theorem nodup_commonKeys {vs : List Sample} (hvs : ∀ v ∈ vs, v.IsJson) : (commonKeys vs).Nodup := by
  cases vs with
  | nil => exact List.nodup_nil
  | cons v vs => exact (hvs v List.mem_cons_self).nodup_keys.filter _

theorem commonKeys_subset_fieldKeys (vs : List Sample) : commonKeys vs ⊆ fieldKeys vs := by
  cases vs with
  | nil => simp
  | cons v vs =>
      have hv : v ∈ v :: vs := List.mem_cons_self
      exact fun k hk => mem_fieldKeys.mpr ⟨v, hv, mem_commonKeys hk v hv⟩

/-- Samples that have keys in common are objects. -/
theorem object_mem_types_of_commonKeys {vs : List Sample} (h : commonKeys vs ≠ []) :
    "object" ∈ types vs := by
  by_contra hnone
  have hkeys := commonKeys_subset_fieldKeys vs
  rw [fieldKeys_eq_nil_of_types hnone] at hkeys
  exact h (List.subset_nil.mp hkeys)

theorem isText_of_mem_commonKeys {vs : List Sample} (hvs : ∀ v ∈ vs, v.IsJson) {k : Scalar}
    (h : k ∈ commonKeys vs) : k.IsText := by
  cases vs with
  | nil => simp at h
  | cons v vs =>
      have hv : v ∈ v :: vs := List.mem_cons_self
      exact (hvs v hv).isText_of_mem_keys (mem_commonKeys h v hv)

/-! ### Values at a key -/

theorem mem_of_at? {k : Scalar} {v w : Sample} (h : v.at? k = some w) :
    ∃ ms, v = .object ms ∧ (k, w) ∈ ms := by
  cases v with
  | object ms =>
      obtain ⟨l₁, l₂, rfl, -⟩ := List.lookup_eq_some_iff.mp h
      exact ⟨_, rfl, by simp⟩
  | _ => simp [at?] at h

theorem at?_of_mem {ms : List (Scalar × Sample)} (hd : (ms.map (·.1)).Nodup) {m : Scalar × Sample}
    (h : m ∈ ms) : (Sample.object ms).at? m.1 = some m.2 := by
  induction ms with
  | nil => simp at h
  | cons n ms ih =>
      obtain ⟨l, w⟩ := n
      obtain ⟨hl, hd⟩ := List.nodup_cons.mp hd
      rcases List.mem_cons.mp h with rfl | h
      · simp [at?]
      · have hne : m.1 ≠ l := fun e => hl (List.mem_map.mpr ⟨m, h, e⟩)
        have hkey : (m.1 == l) = false := by simpa using hne
        simpa only [at?, List.lookup_cons, hkey] using ih hd h

theorem at?_eq_none_of_not_mem {k : Scalar} {v : Sample} (h : k ∉ v.keys) : v.at? k = none := by
  cases v with
  | object ms =>
      refine List.lookup_eq_none_iff.mpr fun m hm => ?_
      have hne : k ≠ m.1 := fun e => h (List.mem_map.mpr ⟨m, hm, e.symm⟩)
      simpa using hne
  | _ => rfl

theorem valuesAt_append_of_not_mem {k : Scalar} (vs : List Sample) {v : Sample} (h : k ∉ v.keys) :
    valuesAt k (vs ++ [v]) = valuesAt k vs := by
  simp [valuesAt, at?_eq_none_of_not_mem h]

/-- One more member at the end of the last object adds its value to those at its key. -/
theorem valuesAt_append_member_self {k : Scalar} (vs : List Sample) {ms : List (Scalar × Sample)}
    (h : k ∉ ms.map (·.1)) (v : Sample) :
    valuesAt k (vs ++ [.object (ms ++ [(k, v)])]) = valuesAt k (vs ++ [.object ms]) ++ [v] := by
  have hold : ms.lookup k = none := at?_eq_none_of_not_mem (v := .object ms) h
  simp [valuesAt, at?, List.lookup_append, hold]

theorem valuesAt_append_member_of_ne {k l : Scalar} (vs : List Sample)
    (ms : List (Scalar × Sample)) (h : l ≠ k) (v : Sample) :
    valuesAt l (vs ++ [.object (ms ++ [(k, v)])]) = valuesAt l (vs ++ [.object ms]) := by
  have hkey : (l == k) = false := by simpa using h
  have hlookup : (ms ++ [(k, v)]).lookup l = ms.lookup l := by
    simp [List.lookup_append, List.lookup_cons, hkey]
  simp [valuesAt, List.filterMap_cons, at?, hlookup]

theorem valuesAt_eq_nil {k : Scalar} {vs : List Sample} (h : k ∉ fieldKeys vs) :
    valuesAt k vs = [] := by
  refine List.filterMap_eq_nil_iff.mpr fun v hv => ?_
  exact at?_eq_none_of_not_mem fun hk => h (mem_fieldKeys.mpr ⟨v, hv, hk⟩)

theorem valuesAt_ne_nil {k : Scalar} {vs : List Sample} (hvs : ∀ v ∈ vs, v.IsJson)
    (h : k ∈ fieldKeys vs) : valuesAt k vs ≠ [] := by
  obtain ⟨v, hv, hk⟩ := mem_fieldKeys.mp h
  cases hvs v hv with
  | scalar s => simp [keys] at hk
  | array _ => simp [keys] at hk
  | object _ unique _ =>
      obtain ⟨m, hm, rfl⟩ := List.mem_map.mp hk
      exact List.ne_nil_of_mem (List.mem_filterMap.mpr ⟨_, hv, at?_of_mem unique hm⟩)

theorem exists_of_mem_valuesAt {k : Scalar} {vs : List Sample} {w : Sample}
    (h : w ∈ valuesAt k vs) : ∃ ms, Sample.object ms ∈ vs ∧ (k, w) ∈ ms := by
  obtain ⟨v, hv, hw⟩ := List.mem_filterMap.mp h
  obtain ⟨ms, rfl, hm⟩ := mem_of_at? hw
  exact ⟨ms, hv, hm⟩

theorem isJson_of_mem_valuesAt {k : Scalar} {vs : List Sample} (hvs : ∀ v ∈ vs, v.IsJson)
    {w : Sample} (h : w ∈ valuesAt k vs) : w.IsJson := by
  obtain ⟨ms, hv, hm⟩ := exists_of_mem_valuesAt h
  cases hvs _ hv with
  | object _ _ values => exact values _ hm

/-! ### Elements -/

theorem elementsOf_append (vs ws : List Sample) :
    elementsOf (vs ++ ws) = elementsOf vs ++ elementsOf ws := by
  simp [elementsOf]

theorem elements_eq_nil {v : Sample} (h : v.type ≠ "array") : v.elements = [] := by
  cases v with
  | array xs => simp at h
  | _ => rfl

theorem elementsOf_eq_nil {vs : List Sample} (h : "array" ∉ types vs) : elementsOf vs = [] := by
  refine List.flatMap_eq_nil_iff.mpr fun v hv => ?_
  exact elements_eq_nil fun ht => h (mem_types.mpr ⟨v, hv, ht⟩)

theorem exists_of_mem_elementsOf {vs : List Sample} {w : Sample} (h : w ∈ elementsOf vs) :
    ∃ xs, Sample.array xs ∈ vs ∧ w ∈ xs := by
  obtain ⟨v, hv, hw⟩ := List.mem_flatMap.mp h
  cases v with
  | array xs => exact ⟨xs, hv, hw⟩
  | _ => simp [elements] at hw

theorem isJson_of_mem_elementsOf {vs : List Sample} (hvs : ∀ v ∈ vs, v.IsJson) {w : Sample}
    (h : w ∈ elementsOf vs) : w.IsJson := by
  obtain ⟨xs, hv, hw⟩ := exists_of_mem_elementsOf h
  exact isJson_array_iff.mp (hvs _ hv) w hw

/-! ### Arrays without elements -/

/-- A sample in which every array has elements. -/
inductive NonemptyArrays : Sample → Prop where
  | scalar (s : Scalar) : NonemptyArrays (.scalar s)
  | foreign (f : Foreign) : NonemptyArrays (.foreign f)
  | array {xs : List Sample} (nonempty : xs ≠ []) (elements : ∀ x ∈ xs, NonemptyArrays x) :
      NonemptyArrays (.array xs)
  | object {ms : List (Scalar × Sample)} (values : ∀ m ∈ ms, NonemptyArrays m.2) :
      NonemptyArrays (.object ms)

section

variable {vs : List Sample} (hvs : ∀ v ∈ vs, v.NonemptyArrays)

include hvs

theorem nonemptyArrays_of_mem_valuesAt {k : Scalar} {w : Sample} (h : w ∈ valuesAt k vs) :
    w.NonemptyArrays := by
  obtain ⟨ms, hv, hm⟩ := exists_of_mem_valuesAt h
  cases hvs _ hv with
  | object values => exact values _ hm

theorem nonemptyArrays_of_mem_elementsOf {w : Sample} (h : w ∈ elementsOf vs) :
    w.NonemptyArrays := by
  obtain ⟨xs, hv, hw⟩ := exists_of_mem_elementsOf h
  cases hvs _ hv with
  | array _ elements => exact elements w hw

theorem elementsOf_ne_nil (h : "array" ∈ types vs) : elementsOf vs ≠ [] := by
  obtain ⟨v, hv, htype⟩ := mem_types.mp h
  obtain ⟨xs, rfl⟩ := type_eq_array_iff.mp htype
  cases hvs _ hv with
  | array nonempty _ =>
      obtain ⟨x, hx⟩ := List.exists_mem_of_ne_nil _ nonempty
      exact List.ne_nil_of_mem (List.mem_flatMap.mpr ⟨_, hv, hx⟩)

end

end Sample

end SchemaForge
