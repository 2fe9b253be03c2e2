import SchemaForge.Proofs.Inference.Exactness

/-!
Drafts and finished nodes side by side. Until all samples are taken in a node is a draft; finishing it brings
its members into order, all the way down, and turns items that no element was met for into a text. What is
said of the samples by a draft is said of them by the finished node as well, so a statement on finished nodes
can be proved by one induction over both, with the samples of each place at hand.
-/

namespace SchemaForge.Inference

open Sample (types fieldKeys valuesAt elementsOf commonKeys)

/-- A draft and its finished form, where some samples were met. -/
inductive Finishes : Place → List Sample → Value → Value → Prop where
  | missing : Finishes .items [] (.object []) Schema.stringNode
  | node {required : List Scalar} {vs : List Sample} {ms ns ps qs : Members} {it it' : Value}
      (isMet : vs ≠ []) (isRequired : required = [] ∨ required = commonKeys vs)
      (draft : Outline required vs ms ps it) (form : Outline required vs ns qs it')
      (fields : ∀ m ∈ ps, ∀ n ∈ qs, n.1 = m.1 → Finishes (.node []) (valuesAt m.1 vs) m.2 n.2)
      (elements : "array" ∈ types vs → Finishes .items (elementsOf vs) it it') :
      Finishes (.node required) vs (.object ms) (.object ns)
  | uniform {ws : List Sample} {node node' : Value} (few : (types ws).length ≤ 1)
      (finishes : Finishes (.node (commonKeys ws)) ws node node') : Finishes .items ws node node'
  | mixed {ws : List Sample} {entries : List (Variant × Value)} (many : 2 ≤ (types ws).length)
      (several : 2 ≤ entries.length) (fits : ∀ e ∈ entries, e.1.FitsIn ws)
      (describes : ∀ e ∈ entries, Describes (.node e.1.required) e.1.samples e.1.node)
      (forms : ∀ e ∈ entries, nodeForm e.1.node = .ok e.2)
      (finishes : ∀ e ∈ entries, Finishes (.node e.1.required) e.1.samples e.1.node e.2)
      (distinct : (entries.map (·.1.node)).Pairwise fun a b => b.alike a = false) :
      Finishes .items ws (.object [(.str "oneOf", .array (entries.map (·.1.node)))])
        (.object [(.str "oneOf", .array (entries.map (·.2)))])

/-! ### The outline of a finished node -/

section Outlines

variable {required : List Scalar} {vs : List Sample} {ms ns ps : Members} {it : Value}
  (outline : Outline required vs ms ps it) (hform : nodeForm (.object ms) = .ok (.object ns))
  (hfin : FinishedMembers ms ns)

include outline hform hfin

theorem known_of_finished : ∀ k ∈ Members.keys ns, ∃ w ∈ nodeWords, k = .str w := by
  intro k hk
  obtain ⟨w, hw, rfl⟩ := List.mem_map.mp ((keys_sublist_keywords hform).subset hk)
  have hsome : Members.find? (.str w) ns ≠ none := fun hnone =>
    (Members.find?_eq_none_iff ⟨w, rfl⟩).mp hnone hk
  refine ⟨w, ?_, rfl⟩
  -- A draft has neither a format nor a title, and is no set of variants.
  by_contra hunknown
  have hnone := outline.find?_eq_none hunknown
  simp only [keywords, List.mem_cons, List.not_mem_nil, or_false] at hw
  rcases hw with rfl | rfl | rfl | rfl | rfl | rfl | rfl
  · exact hunknown (by decide)
  · exact hsome ((find?_copied hform (by decide)).trans hnone)
  · exact hsome ((find?_copied hform (by decide)).trans hnone)
  · exact hunknown (by decide)
  · exact hunknown (by decide)
  · exact hunknown (by decide)
  · exact hsome (hfin.noVariants hnone)

/-- A finished node has the outline of its draft. -/
theorem Outline.finished :
    ∃ qs it', Outline required vs ns qs it' ∧
      List.Forall₂ (fun m n => n.1 = m.1 ∧ nodeForm m.2 = .ok n.2) ps qs ∧
      ("array" ∈ types vs → FinishedItems it it') := by
  obtain ⟨qs, hqs, hproperties⟩ : ∃ qs,
      List.Forall₂ (fun m n => n.1 = m.1 ∧ nodeForm m.2 = .ok n.2) ps qs ∧
        Members.find? (.str "properties") ns =
          if "object" ∈ types vs then some (.object qs) else none := by
    by_cases hobject : "object" ∈ types vs
    · obtain ⟨qs, hfind, hall⟩ := hfin.find?_properties (outline.find?_properties hobject)
      exact ⟨qs, hall, by rw [hfind, if_pos hobject]⟩
    · -- Without objects there are no keys, hence no properties.
      have hkeys : Members.keys ps = [] :=
        outline.keys.trans (Sample.fieldKeys_eq_nil_of_types hobject)
      obtain rfl : ps = [] := List.map_eq_nil_iff.mp hkeys
      exact ⟨[], .nil, by rw [noProperties_of_finished outline hfin hobject, if_neg hobject]⟩
  obtain ⟨it', hitems, hfinished⟩ : ∃ it',
      Members.find? (.str "items") ns = (if "array" ∈ types vs then some it' else none) ∧
        ("array" ∈ types vs → FinishedItems it it') := by
    by_cases harray : "array" ∈ types vs
    · obtain ⟨it', hfind, hfinished⟩ := hfin.find?_items (outline.find?_items harray)
      exact ⟨it', by rw [hfind, if_pos harray], fun _ => hfinished⟩
    · exact ⟨it, by rw [noItems_of_finished outline hfin harray, if_neg harray],
        fun h => absurd h harray⟩
  exact ⟨qs, it', ⟨nodup_keys_of_nodeForm hform, known_of_finished outline hform hfin,
    hfin.type.trans outline.type, find?_required_of_finished outline hfin, hproperties,
    (keys_finished hqs).trans outline.keys, hitems⟩, hqs, hfinished⟩

end Outlines

/-! ### Variants -/

theorem declares_of_accepts {ms : Members} {v : Sample}
    (noSet : Members.find? (.str "oneOf") ms = none) (h : Accepts (.object ms) v) :
    Declares ms v.type := by
  cases h with
  | variant set _ _ => simp [noSet] at set
  | plain _ declares _ => exact declares
  | object _ declares _ _ _ _ => exact declares
  | array _ declares _ _ => exact declares

/-- A variant accepts no sample of another type than its own. -/
theorem types_of_accepts {g : Variant} {ws : List Sample} {v : Sample} (fits : g.FitsIn ws)
    (describes : Describes (.node g.required) g.samples g.node) (h : Accepts g.node v) :
    types g.samples = [v.type] := by
  obtain ⟨ms, hms⟩ := exists_of_describes describes
  rw [hms] at describes h
  obtain ⟨ps, it, outline⟩ := describes.exists_outline
  obtain ⟨declared, hfind, hdeclared⟩ := declares_of_accepts outline.find?_oneOf h
  obtain ⟨t, ht⟩ := List.length_eq_one_iff.mp fits.oneType
  rw [outline.type, ht] at hfind
  cases hfind
  rcases hdeclared with heq | ⟨ts, heq, -⟩
  · cases heq
    exact ht
  · cases heq

/-- Elements of several types are never accepted by a single variant. -/
theorem two_le_length_of_covers {ws : List Sample} {variants : List Variant}
    (many : 2 ≤ (types ws).length) (fits : ∀ g ∈ variants, g.FitsIn ws)
    (describes : ∀ g ∈ variants, Describes (.node g.required) g.samples g.node)
    (covers : ∀ w ∈ ws, ∃ g ∈ variants, Accepts g.node w) : 2 ≤ variants.length := by
  have htype : ∀ t ∈ types ws, ∃ g ∈ variants, types g.samples = [t] := by
    intro t ht
    obtain ⟨w, hw, rfl⟩ := Sample.mem_types.mp ht
    obtain ⟨g, hg, haccepts⟩ := covers w hw
    exact ⟨g, hg, types_of_accepts (fits g hg) (describes g hg) haccepts⟩
  have hsub : (types ws).map (fun t => [t]) ⊆ variants.map fun g => types g.samples := by
    intro ts hts
    obtain ⟨t, ht, rfl⟩ := List.mem_map.mp hts
    obtain ⟨g, hg, hone⟩ := htype t ht
    exact hone ▸ List.mem_map_of_mem hg
  have hnodup : ((types ws).map fun t => [t]).Nodup :=
    (Sample.nodup_types ws).map fun t u h => List.head_eq_of_cons_eq h
  have hlength := (hnodup.subperm hsub).length_le
  rw [List.length_map, List.length_map] at hlength
  omega

/-! ### Every draft -/

/-- The names that a node requires at its place are none, or all that its samples have in common. -/
def Place.Fits : Place → List Sample → Prop
  | .node required, vs => required = [] ∨ required = commonKeys vs
  | .items, _ => True

/-- Items are finished like other drafts, if elements were met. -/
theorem finishes_items {ws : List Sample} {it w : Value} (hdescribes : Describes .items ws it)
    (h : FinishedItems it w) (hmet : ws ≠ [] → nodeForm it = .ok w → Finishes .items ws it w) :
    Finishes .items ws it w := by
  rw [FinishedItems] at h
  by_cases hnil : ws = []
  · subst hnil
    rw [eq_empty_of_describes_items hdescribes] at h ⊢
    rw [if_neg (by simp [Value.truthy])] at h
    exact h ▸ .missing
  · have htruthy : it.truthy = true := by
      obtain ⟨ms, rfl⟩ := exists_of_describes hdescribes
      cases ms with
      | nil => exact absurd (eq_nil_of_describes_empty hdescribes) hnil
      | cons m ms => rfl
    rw [if_pos htruthy] at h
    exact hmet hnil h

/-- A draft that describes some samples and its finished form go together, place by place. -/
theorem Describes.finishes {place : Place} {vs : List Sample} {node node' : Value}
    (h : Describes place vs node) (hvs : ∀ v ∈ vs, v.IsJson) (isMet : vs ≠ []) (hfits : place.Fits vs)
    (hform : nodeForm node = .ok node') : Finishes place vs node node' := by
  induction h generalizing node' with
  | @node required vs ms ps it outline _ elements ihFields ihElements =>
      obtain ⟨ns, rfl, hfin⟩ := exists_of_nodeForm hform
      obtain ⟨qs, it', form, hqs, hitems⟩ := outline.finished hform hfin
      refine .node isMet hfits outline form (fun m hm n hn hkey => ?_) fun harray => ?_
      · obtain ⟨n', hn', hkey', hnode⟩ := exists_right_of_mem hqs hm
        obtain rfl : n = n' :=
          List.inj_on_of_nodup_map form.nodup_keys hn hn' (hkey.trans hkey'.symm)
        have hmem : m.1 ∈ fieldKeys vs := outline.keys ▸ List.mem_map_of_mem hm
        exact ihFields m hm (fun w hw => Sample.isJson_of_mem_valuesAt hvs hw)
          (Sample.valuesAt_ne_nil hvs hmem) (.inl rfl) hnode
      · exact finishes_items (elements harray) (hitems harray) fun hmet hnode =>
          ihElements harray (fun w hw => Sample.isJson_of_mem_elementsOf hvs hw) hmet trivial hnode
  | uniform few _ ih => exact .uniform few (ih hvs isMet (.inr rfl) hform)
  | @mixed ws variants many fits describes covers distinct ih =>
      obtain ⟨ns, rfl, hfin⟩ := exists_of_nodeForm hform
      obtain ⟨_, hset, xs, ys, heq, rfl, hall⟩ := hfin.variants _ rfl
      cases heq
      have hns := nodeForm_set (allForms_eq_ok_iff.mpr hall)
      rw [hform] at hns
      cases hns
      obtain ⟨entries, rfl, rfl, hforms⟩ := exists_pairs (List.forall₂_map_left_iff.mp hall)
      have hmem : ∀ e ∈ entries, e.1 ∈ entries.map (·.1) := fun e he => List.mem_map_of_mem he
      have hlength := two_le_length_of_covers many fits describes covers
      rw [List.map_map] at distinct ⊢
      refine .mixed many (by simpa using hlength) (fun e he => fits e.1 (hmem e he))
        (fun e he => describes e.1 (hmem e he)) hforms (fun e he => ?_) distinct
      have hfit := fits e.1 (hmem e he)
      exact ih e.1 (hmem e he) (fun v hv => hvs v (hfit.among hv)) hfit.samples_ne_nil hfit.isRequired
        (hforms e he)

theorem Outline.ne_nil {required : List Scalar} {vs : List Sample} {ms ps : Members} {it : Value}
    (h : Outline required vs ms ps it) (isMet : vs ≠ []) : ms ≠ [] := by
  rintro rfl
  exact isMet (Sample.types_eq_nil_iff.mp (typeEntry_eq_none_iff.mp h.type.symm))

theorem Finishes.isObject {place : Place} {vs : List Sample} {node node' : Value}
    (h : Finishes place vs node node') : ∃ ns, node' = .object ns ∧ ns ≠ [] := by
  induction h with
  | missing => exact ⟨_, rfl, by simp⟩
  | node isMet _ _ form _ _ => exact ⟨_, rfl, form.ne_nil isMet⟩
  | uniform _ _ ih => exact ih
  | mixed _ _ _ _ _ _ _ => exact ⟨_, rfl, by simp⟩

/-- The node of a sample on its own and its finished form. -/
theorem Inferred.finishes {v : Sample} {ms ns : Members} (h : Inferred v ms ns) (hv : v.IsJson) :
    Finishes (.node []) [v] (.object ms) (.object ns) :=
  h.describes.finishes (by simpa using hv) (List.cons_ne_nil _ _) (.inl rfl) h.form

end SchemaForge.Inference
