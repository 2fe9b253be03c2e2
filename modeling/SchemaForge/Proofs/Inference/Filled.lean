import SchemaForge.Proofs.Inference.Finishing
import SchemaForge.Proofs.Schema.Normalization

/-!
How a draft and its finished form differ. Apart from the order of members they differ only where items are
missing because no element was met: there the draft has an empty node, and the finished form a text. With
these places filled in the two are alike, and where all arrays have elements there is nothing to fill in.
-/

namespace SchemaForge.Inference

open Sample (types fieldKeys valuesAt elementsOf commonKeys)

mutual

/-- A draft in which missing items are a text. -/
def filled : Value → Value
  | .object ms => .object (filledMembers ms)
  | .array xs => .array (filledElements xs)
  | .scalar s => .scalar s

def filledMembers : List (Scalar × Value) → Members
  | [] => []
  | (k, v) :: ms =>
      (k, if k = .str "items" ∧ v.truthy = false then Schema.stringNode else filled v) ::
        filledMembers ms

def filledElements : List Value → List Value
  | [] => []
  | x :: xs => filled x :: filledElements xs

end

/-- What fills the place of a value at a key. -/
def filledAt (k : Scalar) (v : Value) : Value :=
  if k = .str "items" ∧ v.truthy = false then Schema.stringNode else filled v

@[simp] theorem filled_scalar (s : Scalar) : filled (.scalar s) = .scalar s := by rw [filled]

@[simp] theorem filled_array (xs : List Value) : filled (.array xs) = .array (xs.map filled) := by
  have hmap : filledElements xs = xs.map filled := by
    induction xs with
    | nil => rw [filledElements, List.map_nil]
    | cons x xs ih => rw [filledElements, ih, List.map_cons]
  rw [filled, hmap]

@[simp] theorem filled_object (ms : Members) :
    filled (.object ms) = .object (ms.map fun m => (m.1, filledAt m.1 m.2)) := by
  have hmap : filledMembers ms = ms.map fun m => (m.1, filledAt m.1 m.2) := by
    induction ms with
    | nil => rw [filledMembers, List.map_nil]
    | cons m ms ih => rw [filledMembers, ih, List.map_cons, filledAt]
  rw [filled, hmap]

theorem filledAt_of_ne {k : Scalar} (h : k ≠ .str "items") (v : Value) : filledAt k v = filled v :=
  if_neg fun hk => h hk.1

theorem filledAt_of_truthy (k : Scalar) {v : Value} (h : v.truthy = true) : filledAt k v = filled v :=
  if_neg fun hv => by simp [h] at hv

theorem IsFlat.filled {v : Value} (h : IsFlat v) : filled v = v := by
  cases h with
  | scalar s => exact filled_scalar s
  | array ks =>
      rw [filled_array, List.map_map]
      exact congrArg Value.array (List.map_congr_left fun k _ => filled_scalar k)

theorem IsFlat.filledAt {k : Scalar} {v : Value} (h : IsFlat v) (hk : k ≠ .str "items") :
    filledAt k v = v :=
  (filledAt_of_ne hk v).trans h.filled

theorem isJson_filled {v : Value} (hv : v.IsJson) : (filled v).IsJson := by
  induction hv with
  | scalar s => simp
  | array _ ih =>
      rw [filled_array]
      refine .array fun y hy => ?_
      obtain ⟨x, hx, rfl⟩ := List.mem_map.mp hy
      exact ih x hx
  | @object ms text unique _ ih =>
      rw [filled_object]
      have hkeys : Members.keys (ms.map fun m => (m.1, filledAt m.1 m.2)) = Members.keys ms := by
        simp [Members.keys]
      refine .object ?_ (hkeys ▸ unique) ?_
      · intro n hn
        obtain ⟨m, hm, rfl⟩ := List.mem_map.mp hn
        exact text m hm
      · intro n hn
        obtain ⟨m, hm, rfl⟩ := List.mem_map.mp hn
        dsimp only [filledAt]
        split
        · exact Schema.isJson_stringNode
        · exact ih m hm

/-! ### Likeness -/

theorem Outline.keys_subset {required : List Scalar} {vs : List Sample} {ms ns ps qs : Members}
    {it it' : Value} (h : Outline required vs ms ps it) (h' : Outline required vs ns qs it') :
    Members.keys ms ⊆ Members.keys ns := by
  intro k hk
  obtain ⟨w, hw, rfl⟩ := h.known k hk
  have hsome : Members.find? (.str w) ms ≠ none := fun hnone =>
    (Members.find?_eq_none_iff ⟨w, rfl⟩).mp hnone hk
  by_contra hnone
  rw [← Members.find?_eq_none_iff ⟨w, rfl⟩] at hnone
  simp only [nodeWords, List.mem_cons, List.not_mem_nil, or_false] at hw
  rcases hw with rfl | rfl | rfl | rfl
  · exact hsome ((h.type.trans h'.type.symm).trans hnone)
  · exact hsome ((h.isRequired.trans h'.isRequired.symm).trans hnone)
  · rw [h'.properties] at hnone
    rw [h.properties] at hsome
    by_cases hobject : "object" ∈ types vs <;> simp [hobject] at hnone hsome
  · rw [h'.items] at hnone
    rw [h.items] at hsome
    by_cases harray : "array" ∈ types vs <;> simp [harray] at hnone hsome

theorem Outline.length_eq {required : List Scalar} {vs : List Sample} {ms ns ps qs : Members}
    {it it' : Value} (h : Outline required vs ms ps it) (h' : Outline required vs ns qs it') :
    ms.length = ns.length := by
  have hle := (h.unique.subperm (h.keys_subset h')).length_le
  have hge := (h'.unique.subperm (h'.keys_subset h)).length_le
  simp only [Members.keys, List.length_map] at hle hge
  omega

/-- Fields that are alike one by one once they are filled in make properties that are alike. -/
theorem Outline.alike_filled_fields {required : List Scalar} {vs : List Sample} {ms ns ps qs : Members}
    {it it' : Value} (draft : Outline required vs ms ps it) (form : Outline required vs ns qs it')
    (hvs : ∀ v ∈ vs, v.IsJson)
    (fields : ∀ p ∈ ps, ∀ q ∈ qs, q.1 = p.1 → (filledAt p.1 p.2).alike q.2 = true) :
    (filled (.object ps)).alike (.object qs) = true := by
  have hkeys : Members.keys ps = Members.keys qs := draft.keys.trans form.keys.symm
  rw [filled_object, Value.alike_object_iff]
  refine ⟨by simpa [Members.keys] using congrArg List.length hkeys, fun p' hp' => ?_⟩
  obtain ⟨p, hp, rfl⟩ := List.mem_map.mp hp'
  obtain ⟨q, hq, hqkey⟩ := draft.exists_same_key form hp
  refine ⟨q.2, ?_, fields p hp q hq hqkey⟩
  rw [← hqkey]
  exact Members.find?_of_mem (form.isText_of_mem_properties hvs hq) form.nodup_keys hq

theorem Finishes.truthy {place : Place} {vs : List Sample} {node node' : Value}
    (h : Finishes place vs node node') (isMet : vs ≠ []) : node.truthy = true := by
  induction h with
  | missing => exact absurd rfl isMet
  | node _ _ draft _ _ _ => simpa [Value.truthy] using draft.ne_nil isMet
  | uniform _ _ ih => exact ih isMet
  | mixed _ _ _ _ _ _ _ => rfl

/-- A draft is like its finished form once missing items are filled in. -/
theorem Finishes.alike_filled {place : Place} {vs : List Sample} {node node' : Value}
    (h : Finishes place vs node node') (hvs : ∀ v ∈ vs, v.IsJson) :
    (filledAt (.str "items") node).alike node' = true := by
  induction h with
  | missing => exact Schema.isJson_stringNode.alike_self
  | @node required vs ms ns ps qs it it' isMet isRequired draft form fields elements ihFields
      ihElements =>
      have hms : (Value.object ms).truthy = true := by simpa [Value.truthy] using draft.ne_nil isMet
      rw [filledAt_of_truthy _ hms, filled_object, Value.alike_object_iff]
      refine ⟨by simpa using draft.length_eq form, fun m' hm' => ?_⟩
      obtain ⟨m, hm, rfl⟩ := List.mem_map.mp hm'
      rcases draft.cases_of_mem hm with ⟨hkey, htype⟩ | ⟨hkey, hrequired⟩ | ⟨hkey, hobject, hps⟩ |
        ⟨hkey, harray, hit⟩
      · refine ⟨m.2, by rw [hkey, form.type, htype], ?_⟩
        rw [(isFlat_of_typeEntry htype).filledAt (by simp [hkey])]
        exact (isFlat_of_typeEntry htype).isJson.alike_self
      · refine ⟨m.2, by rw [hkey, form.isRequired, hrequired], ?_⟩
        rw [(isFlat_of_requiredEntry hrequired).filledAt (by simp [hkey])]
        exact (isFlat_of_requiredEntry hrequired).isJson.alike_self
      · refine ⟨.object qs, by rw [hkey, form.find?_properties hobject], ?_⟩
        rw [filledAt_of_ne (by simp [hkey]), hps]
        refine draft.alike_filled_fields form hvs fun p hp q hq hqkey => ?_
        have hmet : valuesAt p.1 vs ≠ [] :=
          Sample.valuesAt_ne_nil hvs (draft.keys ▸ List.mem_map_of_mem hp)
        have htruthy := (fields p hp q hq hqkey).truthy hmet
        have hlike := ihFields p hp q hq hqkey fun w hw => Sample.isJson_of_mem_valuesAt hvs hw
        rw [filledAt_of_truthy _ htruthy] at hlike ⊢
        exact hlike
      · refine ⟨it', by rw [hkey, form.find?_items harray], ?_⟩
        rw [hkey, hit]
        exact ihElements harray fun w hw => Sample.isJson_of_mem_elementsOf hvs hw
  | uniform _ _ ih => exact ih hvs
  | @mixed ws entries _ _ fits _ _ finishes _ ih =>
      have hlike : ∀ e ∈ entries, (filled e.1.node).alike e.2 = true := by
        intro e he
        have htruthy := (finishes e he).truthy (fits e he).samples_ne_nil
        rw [← filledAt_of_truthy (.str "items") htruthy]
        exact ih e he fun v hv => hvs v ((fits e he).among hv)
      rw [filledAt_of_truthy _ rfl, filled_object, Value.alike_object_iff]
      refine ⟨rfl, ?_⟩
      simp only [List.map_cons, List.map_nil, List.mem_singleton, forall_eq]
      refine ⟨_, rfl, ?_⟩
      rw [filledAt_of_ne (by simp), filled_array, List.map_map, Value.alike_array_iff,
        List.forall₂_map_left_iff, List.forall₂_map_right_iff]
      exact List.forall₂_same.mpr hlike

theorem Finishes.alike_of_met {place : Place} {vs : List Sample} {node node' : Value}
    (h : Finishes place vs node node') (hvs : ∀ v ∈ vs, v.IsJson) (isMet : vs ≠ []) :
    (filled node).alike node' = true :=
  filledAt_of_truthy _ (h.truthy isMet) ▸ h.alike_filled hvs

/-! ### Nothing to fill in -/

/-- Where all arrays have elements, drafts have no missing items. -/
theorem Finishes.filled_eq_self {place : Place} {vs : List Sample} {node node' : Value}
    (h : Finishes place vs node node') (hvs : ∀ v ∈ vs, v.IsJson)
    (hfull : ∀ v ∈ vs, v.NonemptyArrays) (isMet : vs ≠ []) : filled node = node := by
  induction h with
  | missing => exact absurd rfl isMet
  | @node required vs ms ns ps qs it it' _ isRequired draft form fields elements ihFields ihElements =>
      rw [filled_object]
      refine congrArg Value.object (map_eq_self_iff.mpr fun m hm => Prod.ext rfl ?_)
      rcases draft.cases_of_mem hm with ⟨hkey, htype⟩ | ⟨hkey, hrequired⟩ | ⟨hkey, -, hps⟩ |
        ⟨hkey, harray, hit⟩
      · exact (isFlat_of_typeEntry htype).filledAt (by simp [hkey])
      · exact (isFlat_of_requiredEntry hrequired).filledAt (by simp [hkey])
      · refine (filledAt_of_ne (by simp [hkey]) _).trans ?_
        rw [hps, filled_object]
        refine congrArg Value.object (map_eq_self_iff.mpr fun p hp => Prod.ext rfl ?_)
        obtain ⟨q, hq, hqkey⟩ := draft.exists_same_key form hp
        have hmet : valuesAt p.1 vs ≠ [] :=
          Sample.valuesAt_ne_nil hvs (draft.keys ▸ List.mem_map_of_mem hp)
        refine (filledAt_of_truthy _ ((fields p hp q hq hqkey).truthy hmet)).trans ?_
        exact ihFields p hp q hq hqkey (fun w hw => Sample.isJson_of_mem_valuesAt hvs hw)
          (fun w hw => Sample.nonemptyArrays_of_mem_valuesAt hfull hw) hmet
      · have hmet := Sample.elementsOf_ne_nil hfull harray
        rw [hit]
        refine (filledAt_of_truthy _ ((elements harray).truthy hmet)).trans ?_
        exact ihElements harray (fun w hw => Sample.isJson_of_mem_elementsOf hvs hw)
          (fun w hw => Sample.nonemptyArrays_of_mem_elementsOf hfull hw) hmet
  | uniform _ _ ih => exact ih hvs hfull isMet
  | @mixed ws entries _ _ fits _ _ finishes _ ih =>
      have hself : ∀ e ∈ entries, filled e.1.node = e.1.node := by
        intro e he
        have hfit := fits e he
        exact ih e he (fun v hv => hvs v (hfit.among hv)) (fun v hv => hfull v (hfit.among hv))
          hfit.samples_ne_nil
      have hmap : (entries.map (·.1.node)).map filled = entries.map (·.1.node) := by
        rw [List.map_map]
        exact List.map_congr_left hself
      rw [filled_object, List.map_singleton, filledAt_of_ne (by simp), filled_array, hmap]

end SchemaForge.Inference
