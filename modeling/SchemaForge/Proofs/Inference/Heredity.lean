import SchemaForge.Proofs.Inference.Normality

/-!
Inferred schemas hold nothing but texts, as words and as names. So a property that depends on the parts of a
value alone, and that texts have, holds of every inferred schema: of its nodes by what they describe, of their
finished forms keyword by keyword, and of the root with its title.
-/

namespace SchemaForge.Inference

variable {K : Scalar → Prop} {P : Value → Prop} (hP : Value.Hereditary K P)

include hP

/-! ### Finished nodes -/

/-- A finished node has the property if what stands at its keywords has it. -/
theorem hereditary_of_keywords {ns : Members} (keys : (Members.keys ns).Sublist (keywords.map .str))
    (values : ∀ w ∈ keywords, ∀ v, Members.find? (.str w) ns = some v → P v) : P (.object ns) := by
  have unique : (Members.keys ns).Nodup := keys.nodup (by decide)
  have known : ∀ m ∈ ns, ∃ w ∈ keywords, m.1 = .str w := by
    intro m hm
    obtain ⟨w, hw, heq⟩ := List.mem_map.mp (keys.subset (List.mem_map_of_mem hm))
    exact ⟨w, hw, heq.symm⟩
  have text : ∀ m ∈ ns, m.1.IsText := by
    intro m hm
    obtain ⟨w, -, heq⟩ := known m hm
    exact ⟨w, heq⟩
  refine (hP.object_iff ns).mpr ⟨fun m hm => hP.key_of_isText (text m hm),
    Members.distinct_of_text text unique, fun m hm => ?_⟩
  obtain ⟨w, hw, heq⟩ := known m hm
  exact values w hw m.2 (heq ▸ Members.find?_of_mem (text m hm) unique hm)

theorem hereditary_finishedProperties {ps qs : Members} (hps : P (.object ps))
    (h : List.Forall₂ (fun m n => n.1 = m.1 ∧ nodeForm m.2 = .ok n.2) ps qs)
    (hform : ∀ m ∈ ps, ∀ node, nodeForm m.2 = .ok node → P node) : P (.object qs) := by
  obtain ⟨ofKey, distinct, -⟩ := (hP.object_iff ps).mp hps
  refine (hP.object_iff qs).mpr ⟨fun n hn => ?_, ?_, fun n hn => ?_⟩
  · obtain ⟨m, hm, hkey, -⟩ := exists_left_of_mem h hn
    exact hkey ▸ ofKey m hm
  · rwa [Members.distinct_iff_keys, keys_finished h, ← Members.distinct_iff_keys]
  · obtain ⟨m, hm, -, hnode⟩ := exists_left_of_mem h hn
    exact hform m hm _ hnode

theorem hereditary_finishedItems {v w : Value} (h : FinishedItems v w)
    (hform : ∀ node, nodeForm v = .ok node → P node) : P w := by
  rw [FinishedItems] at h
  split at h
  · exact hform w h
  · exact h ▸ Schema.hereditary_stringNode hP

/-- The finished form of an inferred node. -/
theorem Describes.hereditary_form {place : Place} {vs : List Sample} {node node' : Value}
    (h : Describes place vs node) (hvs : ∀ v ∈ vs, v.IsJson) (hnames : ∀ k ∈ place.names, P (.scalar k))
    (hform : nodeForm node = .ok node') : P node' := by
  induction h generalizing node' with
  | @node required vs ms ps it outline fields elements ihFields ihElements =>
      obtain ⟨ns, rfl, hfin⟩ := exists_of_nodeForm hform
      have hms : P (.object ms) := (Describes.node outline fields elements).hereditary hP hvs hnames
      have hcopied : ∀ w ∈ ["type", "format", "title"], ∀ v, Members.find? (.str w) ns = some v → P v :=
        fun w hw v hv => hP.of_find? hms ((find?_copied hform hw).symm.trans hv)
      refine hereditary_of_keywords hP (keys_sublist_keywords hform) fun w hw v hv => ?_
      simp only [keywords, List.mem_cons, List.not_mem_nil, or_false] at hw
      rcases hw with rfl | rfl | rfl | rfl | rfl | rfl | rfl
      · exact hcopied _ (by decide) v hv
      · exact hcopied _ (by decide) v hv
      · exact hcopied _ (by decide) v hv
      · obtain ⟨u, xs, hu, hxs, rfl⟩ := hfin.required v hv
        exact (hP.array_iff xs).mpr (hP.of_elements (hP.of_find? hms hu) hxs)
      · obtain ⟨u, hu, ps, qs, rfl, rfl, hall⟩ := exists_of_rel_some_right (hv ▸ hfin.properties)
        obtain ⟨-, heq⟩ := Option.ite_none_right_eq_some.mp (outline.properties.symm.trans hu)
        cases heq
        refine hereditary_finishedProperties hP (hP.of_find? hms hu) hall fun m hm _ => ?_
        exact ihFields m hm (fun w hw => Sample.isJson_of_mem_valuesAt hvs hw) (by simp [Place.names])
      · obtain ⟨u, hu, hitems⟩ := exists_of_rel_some_right (hv ▸ hfin.items)
        obtain ⟨harray, heq⟩ := Option.ite_none_right_eq_some.mp (outline.items.symm.trans hu)
        cases heq
        refine hereditary_finishedItems hP hitems fun _ => ?_
        exact ihElements harray (fun w hw => Sample.isJson_of_mem_elementsOf hvs hw) (by simp [Place.names])
      · rw [hfin.noVariants outline.find?_oneOf] at hv
        cases hv
  | uniform _ _ ih =>
      exact ih hvs (fun k hk => hP.scalar (hP.key_of_isText (Sample.isText_of_mem_commonKeys hvs hk))) hform
  | @mixed ws variants _ fits _ _ _ ih =>
      obtain ⟨ns, -, hfin⟩ := exists_of_nodeForm hform
      obtain ⟨_, -, xs, ys, heq, rfl, hall⟩ := hfin.variants _ rfl
      cases heq
      rw [nodeForm_set (allForms_eq_ok_iff.mpr hall)] at hform
      cases hform
      refine hP.append hP.empty rfl ((hP.array_iff ys).mpr fun y hy => ?_)
      obtain ⟨x, hx, hxy⟩ := exists_left_of_mem hall hy
      obtain ⟨g, hg, rfl⟩ := List.mem_map.mp hx
      exact ih g hg (fun v hv => hvs v ((fits g hg).among hv)) ((fits g hg).hereditary_required hP hvs) hxy

/-! ### The root -/

theorem hereditary_heading (kind : Kind) (title : Option String) : P (.object (heading kind title)) := by
  have htype : P (.object [(.str "type", .str kind.rootKind.name)]) :=
    hP.append hP.empty rfl (hP.text _)
  unfold heading
  split
  · exact htype
  · split
    · exact htype
    · exact @Value.Hereditary.append _ _ hP "title" _ _ htype rfl (hP.text _)

theorem hereditary_heading_append (kind : Kind) (title : Option String) {word : String} {v : Value}
    (hword : word ∈ acceptanceWords) (hne : word ≠ "type") (hv : P v) :
    P (.object (heading kind title ++ [(.str word, v)])) := by
  refine hP.append (hereditary_heading hP kind title) ?_ hv
  rw [Members.has, find?_heading kind title hword, if_neg hne]
  rfl

theorem hereditary_entitle {items : Members} (hitems : P (.object items)) (title : Option String) :
    P (.object (entitle title items (heading .array title))) := by
  have hplain : ∀ is, P (.object is) →
      P (.object (heading .array title ++ [(.str "items", .object is)])) :=
    fun is his => hereditary_heading_append hP _ _ (by decide) (by decide) his
  unfold entitle
  split
  · exact hplain items hitems
  · next t =>
      split
      · exact hplain items hitems
      · exact hP.insert (hplain _ (hP.insert hitems (.inl (hP.key _)) (hP.text _))) (.inl (hP.key _)) (hP.text _)

/-- The finished node of a sample on its own. -/
theorem Inferred.hereditary {v : Sample} {ms ns : Members} (h : Inferred v ms ns) (hv : v.IsJson) :
    P (.object ns) :=
  h.describes.hereditary_form hP (by simpa using hv) (by simp [Place.names]) h.form

/-- The schema of a JSON sample, with whatever title, has every property that texts have and that depends on
the parts of a value alone. -/
theorem hereditary_inferSchema {v : Sample} (hv : v.IsJson) {title : Option String} {schema : Value}
    (h : inferSchema v title = .ok schema) : P schema := by
  cases hv with
  | scalar s =>
      cases h
      exact hereditary_heading hP _ title
  | @array xs elements =>
      have hjson : (Sample.array xs).IsJson := .array elements
      obtain ⟨ms, ns, hinferred⟩ := exists_inferred hjson
      obtain ⟨items, hitems, heq⟩ := hinferred.exists_items
      cases (heq title).symm.trans h
      exact hereditary_entitle hP (hP.of_find? (hinferred.hereditary hP hjson) hitems) title
  | @object fields text unique values =>
      have hjson : (Sample.object fields).IsJson := .object text unique values
      obtain ⟨ms, ns, hinferred⟩ := exists_inferred hjson
      obtain ⟨ps, hps, heq⟩ := hinferred.exists_properties
      cases (heq title).symm.trans h
      exact hereditary_heading_append hP _ title (by decide) (by decide)
        (hP.of_find? (hinferred.hereditary hP hjson) hps)

end SchemaForge.Inference
