import SchemaForge.Proofs.Inference.Fields

/-!
Widening the node of elements by the elements of one more array. As long as all elements that were ever
met are of one type they widen one node in turn; from the first element of another type on, each one is
described on its own in a set of variants.
-/

namespace SchemaForge.Inference

open Sample (types commonKeys elementsOf)

/-- The node of elements widened by further elements. -/
def widenItems (items : Value) (xs : List Sample) : Except Fault Value := do
  match ← plan items (xs.map Sample.kind) with
  | .grow node set => do grown node set (← variants xs)
  | .mix first => do pure (mixed first (← variants xs))
  | .objects required node => do
      let (required, schema) ← widenObjects xs required (.object node)
      withRequired required schema
  | .arrays node => widenArrays xs (.object node)
  | .scalars kind node => pure (typed kind (xs.filterMap Sample.format) node)
  | .keep => pure items

theorem widen_array (schema : Option Value) (xs : List Sample) :
    widen schema (.array xs) =
      (do
        let out ← opened .array schema
        let widened ← widenItems (openItems out) xs
        return .object (Members.insert (.str "items") widened out)) := by
  simp only [widen, widenItems, bind_assoc]
  congr 1
  funext out
  congr 1
  funext p
  cases p <;> simp

/-! ### Objects in turn -/

theorem widenObjects_describes {xs : List Sample} (hxs : ∀ x ∈ xs, x.IsJson)
    (hwidens : ∀ x ∈ xs, Widens x) (hobjects : ∀ x ∈ xs, x.type = "object") :
    ∀ {required : List Scalar} {ws : List Sample} {node : Value}, (∀ w ∈ ws, w.IsJson) →
      Describes (.node required) ws node →
        ∃ node', widenObjects xs (requiredNames ws) node =
            .ok (requiredNames (ws ++ xs), node') ∧
          Describes (.node required) (ws ++ xs) node' := by
  -- Each object becomes one of those before the next, so `ws` and the node vary with the induction.
  induction xs with
  | nil =>
      intro required ws node _ h
      exact ⟨node, by simp [widenObjects], by simpa using h⟩
  | cons x xs ih =>
      intro required ws node hws h
      have hx : x.isContainer = true := by
        obtain ⟨fields, rfl⟩ := Sample.type_eq_object_iff.mp (hobjects x List.mem_cons_self)
        rfl
      obtain ⟨middle, hmiddle, hdescribes⟩ := hwidens x List.mem_cons_self hws h
      rw [widenNode, if_pos hx] at hmiddle
      have hws' : ∀ w ∈ ws ++ [x], w.IsJson := by
        simpa [or_imp, forall_and] using ⟨hws, hxs x List.mem_cons_self⟩
      obtain ⟨node', hnode', hrest⟩ := ih (fun y hy => hxs y (List.mem_cons_of_mem _ hy))
        (fun y hy => hwidens y (List.mem_cons_of_mem _ hy))
        (fun y hy => hobjects y (List.mem_cons_of_mem _ hy)) hws' hdescribes
      refine ⟨node', ?_, by simpa using hrest⟩
      rw [widenObjects, narrowRequired_requiredNames hws, ok_bind, hmiddle, ok_bind,
        ← requiredNames_of_ne_nil (by simp), hnode']
      simp

/-- Setting the names that all elements carry, in place of those of before. -/
theorem withRequired_describes {old : List Scalar} {ws : List Sample} {node : Value}
    (h : Describes (.node old) ws node) (ks : List Scalar) :
    ∃ node', withRequired (some (ks.map .scalar)) node = .ok node' ∧
      Describes (.node ks) ws node' := by
  cases h with
  | @node _ _ ms ps it outline fields elements =>
      cases ks with
      | nil =>
          -- An empty list of names is not written down; the keyword goes away.
          refine ⟨.object (Members.erase (.str "required") ms), rfl, .node ?_ fields elements⟩
          refine ⟨Members.nodup_keys_erase outline.unique,
            fun k hk => outline.known k (Members.mem_keys_erase hk), ?_, ?_, ?_, outline.keys, ?_⟩
          · rw [Members.find?_erase_of_ne ⟨_, rfl⟩ (by simp), outline.type]
          · exact Members.find?_erase_self _ _
          · rw [Members.find?_erase_of_ne ⟨_, rfl⟩ (by simp), outline.properties]
          · rw [Members.find?_erase_of_ne ⟨_, rfl⟩ (by simp), outline.items]
      | cons k ks =>
          refine ⟨.object (Members.insert (.str "required") (.array ((k :: ks).map .scalar)) ms),
            rfl, .node ?_ fields elements⟩
          exact ⟨Members.nodup_keys_insert ⟨_, rfl⟩ outline.unique,
            outline.known_insert (by decide) _, by simpa using outline.type,
            by simp [requiredEntry], by simpa using outline.properties, outline.keys,
            by simpa using outline.items⟩

/-- The names that a node of objects says are required are those that its objects carry. -/
theorem requiredSoFar_eq {ws : List Sample} {ms ps : Members} {it : Value}
    (h : Outline (commonKeys ws) ws ms ps it) (htypes : types ws = [] ∨ types ws = ["object"]) :
    requiredSoFar ms = .ok (requiredNames ws) := by
  have htype := h.type
  rcases htypes with hts | hts
  · have hnil : ws = [] := Sample.types_eq_nil_iff.mp hts
    subst hnil
    simp [requiredSoFar, htype, typeEntry]
  · have hne : ws ≠ [] := by
      intro hnil
      simp [hnil] at hts
    rw [hts] at htype
    rw [requiredSoFar, htype, requiredNames_of_ne_nil hne, h.isRequired]
    cases commonKeys ws with
    | nil => rfl
    | cons k ks => rfl

/-! ### Arrays in turn -/

theorem widenArrays_describes {xs : List Sample} (hxs : ∀ x ∈ xs, x.IsJson)
    (hwidens : ∀ x ∈ xs, Widens x) (harrays : ∀ x ∈ xs, x.type = "array") :
    ∀ {ws : List Sample} {node : Value}, (∀ w ∈ ws, w.IsJson) → (∀ w ∈ ws, w.type = "array") →
      Describes (.node []) ws node →
        ∃ node', widenArrays xs node = .ok node' ∧ Describes (.node []) (ws ++ xs) node' := by
  induction xs with
  | nil =>
      intro ws node _ _ h
      exact ⟨node, by simp [widenArrays], by simpa using h⟩
  | cons x xs ih =>
      intro ws node hws hwarrays h
      have hxarray : x.type = "array" := harrays x List.mem_cons_self
      have hcontainer : x.isContainer = true := by
        obtain ⟨ys, rfl⟩ := Sample.type_eq_array_iff.mp hxarray
        rfl
      obtain ⟨middle, hmiddle, hdescribes⟩ := hwidens x List.mem_cons_self hws h
      -- A node that has no type yet is the empty one, so beginning anew changes nothing.
      have hstep : (do
          let type ← node.getOrNull "type"
          widen (if type = Value.str "array" then some node else none) x) = .ok middle := by
        by_cases hnil : ws = []
        · subst hnil
          rw [eq_empty_of_describes_node h] at hmiddle ⊢
          rw [← widen_none (hxs x List.mem_cons_self)] at hmiddle
          exact hmiddle
        · cases h with
          | @node _ _ ms ps it outline _ _ =>
              have htype := outline.type
              rw [Sample.types_eq_singleton hnil hwarrays] at htype
              rw [widenNode, if_pos hcontainer] at hmiddle
              simp [Value.getOrNull, Value.lookup, htype, typeEntry, hmiddle]
      have hws' : ∀ w ∈ ws ++ [x], w.IsJson := by
        simpa [or_imp, forall_and] using ⟨hws, hxs x List.mem_cons_self⟩
      have hwarrays' : ∀ w ∈ ws ++ [x], w.type = "array" := by
        simpa [or_imp, forall_and] using ⟨hwarrays, hxarray⟩
      obtain ⟨node', hnode', hrest⟩ := ih (fun y hy => hxs y (List.mem_cons_of_mem _ hy))
        (fun y hy => hwidens y (List.mem_cons_of_mem _ hy))
        (fun y hy => harrays y (List.mem_cons_of_mem _ hy)) hws' hwarrays' hdescribes
      refine ⟨node', ?_, by simpa using hrest⟩
      rw [widenArrays, ← bind_assoc, hstep, ok_bind, hnode']

/-! ### Scalars -/

theorem typed_describes {ws xs : List Sample} {ms : Members} {kind : String}
    (hxs : ∀ x ∈ xs, x.IsJson) (h : Describes (.node (commonKeys ws)) ws (.object ms))
    (htypes : types (ws ++ xs) = [kind]) (hobject : kind ≠ "object") (harray : kind ≠ "array") :
    Describes (.node []) (ws ++ xs) (typed kind (xs.filterMap Sample.format) ms) := by
  have hformats : xs.filterMap Sample.format = [] :=
    List.filterMap_eq_nil_iff.mpr fun x hx => format_of_isJson (hxs x hx)
  have hkind : ∀ v ∈ ws ++ xs, v.type = kind := fun v hv => Sample.type_of_types_eq htypes hv
  have hno : ∀ t, t ≠ kind → t ∉ types (ws ++ xs) := by
    intro t ht hmem
    rw [htypes] at hmem
    exact ht (List.mem_singleton.mp hmem)
  have hnoOld : ∀ t, t ≠ kind → t ∉ types ws := by
    intro t ht hmem
    obtain ⟨w, hw, rfl⟩ := Sample.mem_types.mp hmem
    exact ht (hkind w (List.mem_append_left _ hw))
  -- Scalars carry no keys, so nothing is required of them before or after.
  have hrequired : commonKeys ws = [] :=
    Sample.commonKeys_eq_nil_of_type (fun w hw => hkind w (List.mem_append_left _ hw)) hobject
  rw [typed, hformats, List.foldl_nil]
  rw [hrequired] at h
  cases h with
  | @node _ _ ms ps it outline _ _ =>
      have hproperties := outline.properties
      have hitems := outline.items
      rw [if_neg (hnoOld _ hobject.symm)] at hproperties
      rw [if_neg (hnoOld _ harray.symm)] at hitems
      have outline' : Outline [] (ws ++ xs) (Members.insert (.str "type") (.str kind) ms) [] it := by
        refine ⟨Members.nodup_keys_insert ⟨_, rfl⟩ outline.unique,
          outline.known_insert (by decide) _, ?_, ?_, ?_, ?_, ?_⟩
        · simp [htypes, typeEntry]
        · simpa using outline.isRequired
        · rw [if_neg (hno _ hobject.symm)]
          simpa using hproperties
        · rw [Sample.fieldKeys_eq_nil_of_types (hno _ hobject.symm)]
          rfl
        · rw [if_neg (hno _ harray.symm)]
          simpa using hitems
      exact .node outline' (by simp) fun hmem => absurd hmem (hno _ harray.symm)

/-! ### Variants -/

theorem variants_describe {xs : List Sample} (hxs : ∀ x ∈ xs, x.IsJson)
    (hwidens : ∀ x ∈ xs, Widens x) :
    ∃ cs, variants xs = .ok cs ∧
      List.Forall₂ (fun x c => Describes (.node []) [x] c) xs cs := by
  induction xs with
  | nil => exact ⟨[], by rw [variants], .nil⟩
  | cons x xs ih =>
      obtain ⟨c, hc, hdescribes⟩ := hwidens x List.mem_cons_self (by simp) describes_empty
      obtain ⟨cs, hcs, hall⟩ := ih (fun y hy => hxs y (List.mem_cons_of_mem _ hy))
        fun y hy => hwidens y (List.mem_cons_of_mem _ hy)
      refine ⟨c :: cs, ?_, .cons hdescribes hall⟩
      rw [variants, widen_none (hxs x List.mem_cons_self), hc, ok_bind, hcs]
      rfl

/-- A variant that describes one element on its own. -/
def Variant.IsFresh (g : Variant) (xs : List Sample) : Prop :=
  ∃ x ∈ xs, g.required = [] ∧ g.samples = [x] ∧ Describes (.node []) [x] g.node

theorem Variant.IsFresh.mono {g : Variant} {xs ys : List Sample} (h : g.IsFresh xs)
    (hsub : xs ⊆ ys) : g.IsFresh ys := by
  obtain ⟨x, hx, hrest⟩ := h
  exact ⟨x, hsub hx, hrest⟩

/-- Each element is accepted by a variant afterwards: by its own, or by the one that kept its own
out. -/
theorem addVariants_covers {xs : List Sample} {cs : List Value} (hxs : ∀ x ∈ xs, x.IsJson)
    (h : List.Forall₂ (fun x c => Describes (.node []) [x] c) xs cs) :
    ∀ groups : List Variant, ∃ more : List Variant,
      addVariants (groups.map Variant.node) cs = (groups ++ more).map Variant.node ∧
        (∀ g ∈ more, g.IsFresh xs) ∧ ∀ x ∈ xs, ∃ g ∈ groups ++ more, Accepts g.node x := by
  induction h with
  | nil => exact fun groups => ⟨[], by simp [addVariants], by simp, by simp⟩
  | @cons x c xs cs hc _ ih =>
      intro groups
      have hx : x.IsJson := hxs x List.mem_cons_self
      have haccepts : Accepts c x :=
        hc.accepts (by simpa using hx) (by simp [Place.Honest]) x (by simp)
      have ih := ih fun y hy => hxs y (List.mem_cons_of_mem _ hy)
      by_cases hany : (groups.map Variant.node).any (c.alike ·)
      · -- The variant that keeps the candidate out accepts what the candidate accepts.
        obtain ⟨more, heq, hfresh, hcovers⟩ := ih groups
        refine ⟨more, ?_, fun g hg => (hfresh g hg).mono (List.subset_cons_self _ _), ?_⟩
        · rw [addVariants, if_pos hany, heq]
        · intro y hy
          rcases List.mem_cons.mp hy with rfl | hy
          · obtain ⟨n, hn, hlike⟩ := List.any_eq_true.mp hany
            obtain ⟨g, hg, rfl⟩ := List.mem_map.mp hn
            have hjson : c.IsJson := hc.isJson (by simpa using hx)
            exact ⟨g, List.mem_append_left _ hg, haccepts.of_alike hjson hlike⟩
          · exact hcovers y hy
      · obtain ⟨more, heq, hfresh, hcovers⟩ := ih (groups ++ [Variant.mk [] [x] c])
        refine ⟨Variant.mk [] [x] c :: more, ?_, ?_, ?_⟩
        · have hmap : groups.map Variant.node ++ [c] =
              (groups ++ [Variant.mk [] [x] c]).map Variant.node := by simp
          rw [addVariants, if_neg hany, hmap, heq]
          simp
        · intro g hg
          rcases List.mem_cons.mp hg with rfl | hg
          · exact ⟨x, List.mem_cons_self, rfl, rfl, hc⟩
          · exact (hfresh g hg).mono (List.subset_cons_self _ _)
        · intro y hy
          rcases List.mem_cons.mp hy with rfl | hy
          · exact ⟨Variant.mk [] [y] c, by simp, haccepts⟩
          · simpa using hcovers y hy

/-- Only what is like nothing before it is added. -/
theorem addVariants_distinct (cs : List Value) :
    ∀ {nodes : List Value}, nodes.Pairwise (fun a b => b.alike a = false) →
      (addVariants nodes cs).Pairwise fun a b => b.alike a = false := by
  induction cs with
  | nil => exact fun h => h
  | cons c cs ih =>
      intro nodes h
      rw [addVariants]
      split
      · exact ih h
      · next hnew =>
          refine ih (List.pairwise_append.mpr ⟨h, List.pairwise_singleton _ _, fun a ha b hb => ?_⟩)
          rw [List.mem_singleton.mp hb]
          simpa using fun hlike => hnew (List.any_eq_true.mpr ⟨a, ha, hlike⟩)

/-- A set of variants to which the elements of one more array are added. -/
theorem addVariants_describes {ws xs : List Sample} {cs : List Value} (groups : List Variant)
    (hxs : ∀ x ∈ xs, x.IsJson) (many : 2 ≤ (types (ws ++ xs)).length)
    (fits : ∀ g ∈ groups, g.FitsIn ws)
    (describes : ∀ g ∈ groups, Describes (.node g.required) g.samples g.node)
    (covers : ∀ w ∈ ws, ∃ g ∈ groups, Accepts g.node w)
    (distinct : (groups.map Variant.node).Pairwise fun a b => b.alike a = false)
    (hcs : List.Forall₂ (fun x c => Describes (.node []) [x] c) xs cs) :
    Describes .items (ws ++ xs)
      (.object [(.str "oneOf", .array (addVariants (groups.map Variant.node) cs))]) := by
  obtain ⟨more, heq, hfresh, hcovers⟩ := addVariants_covers hxs hcs groups
  have hdistinct := addVariants_distinct cs distinct
  rw [heq] at hdistinct ⊢
  refine .mixed many ?_ ?_ ?_ hdistinct
  · intro g hg
    rcases List.mem_append.mp hg with hg | hg
    · obtain ⟨among, oneType, isRequired⟩ := fits g hg
      exact ⟨fun v hv => List.mem_append_left _ (among hv), oneType, isRequired⟩
    · obtain ⟨x, hx, hrequired, hsamples, -⟩ := hfresh g hg
      refine ⟨fun v hv => ?_, by simp [hsamples], .inl hrequired⟩
      rw [hsamples] at hv
      exact List.mem_append_right _ (List.mem_singleton.mp hv ▸ hx)
  · intro g hg
    rcases List.mem_append.mp hg with hg | hg
    · exact describes g hg
    · obtain ⟨x, -, hrequired, hsamples, hdescribes⟩ := hfresh g hg
      rwa [hrequired, hsamples]
  · intro v hv
    rcases List.mem_append.mp hv with hv | hv
    · obtain ⟨g, hg, haccepts⟩ := covers v hv
      exact ⟨g, List.mem_append_left _ hg, haccepts⟩
    · exact hcovers v hv

/-! ### Plans -/

/-- The plan for elements that were all of one type so far, by the types that there are with the new
ones. -/
def planFor (first : List Value) (node : Members) : List String → Except Fault Plan
  | [] => .ok .keep
  | ["object"] => do return .objects (← requiredSoFar node) node
  | ["array"] => .ok (.arrays node)
  | [kind] => .ok (.scalars kind node)
  | _ => .ok (.mix first)

theorem planFor_scalar (first : List Value) (node : Members) {kind : String}
    (hobject : kind ≠ "object") (harray : kind ≠ "array") :
    planFor first node [kind] = .ok (.scalars kind node) := by
  unfold planFor
  split <;> simp_all

theorem planFor_mixed (first : List Value) (node : Members) (t u : String) (ts : List String) :
    planFor first node (t :: u :: ts) = .ok (.mix first) := by
  simp [planFor]

theorem plan_uniform {required : List Scalar} {ws : List Sample} {ms ps : Members} {it : Value}
    (h : Outline required ws ms ps it) (few : (types ws).length ≤ 1) (xs : List Sample) :
    plan (.object ms) (xs.map Sample.kind) =
      planFor (if ws = [] then [] else [.object ms]) ms (types (ws ++ xs)) := by
  have hholds : (Value.object ms).holds (.str "oneOf") = .ok false := by
    simp [Value.holds, Members.has, h.find?_oneOf]
  have hkinds := elementKinds_types ws xs
  rw [plan, hholds, ok_bind, if_neg (by simp), Value.members_object, ok_bind, h.type]
  rcases hts : types ws with _ | ⟨t, _ | ⟨u, ts⟩⟩
  · have hnil : ws = [] := Sample.types_eq_nil_iff.mp hts
    rw [hts] at hkinds
    simp only [typeEntry, Option.getD_none, hkinds, if_pos hnil]
    rfl
  · have hne : ws ≠ [] := fun hnil => by simp [hnil] at hts
    have htruthy : (Value.str t).truthy = true := by
      obtain ⟨w, -, rfl⟩ := Sample.mem_types.mp (hts ▸ List.mem_singleton_self t)
      simp [Value.truthy, Sample.type_ne_empty]
    rw [hts] at hkinds
    simp only [typeEntry, Option.getD_some, hkinds, if_neg hne, htruthy, if_true]
    rfl
  · simp [hts] at few

theorem plan_mixed (node : Value) (kinds : List Kind) :
    plan (.object [(.str "oneOf", node)]) kinds = .ok (.grow [(.str "oneOf", node)] node) := by
  simp [plan, Value.holds, Members.has]

section

/-! The node of elements that were all of one type so far, and elements that leave it at one type, or
bring another. -/

variable {ws xs : List Sample} {ms ps : Members} {it : Value} (hws : ∀ w ∈ ws, w.IsJson)
  (hxs : ∀ x ∈ xs, x.IsJson) (hwidens : ∀ x ∈ xs, Widens x) (few : (types ws).length ≤ 1)
  (outline : Outline (commonKeys ws) ws ms ps it)
  (describes : Describes (.node (commonKeys ws)) ws (.object ms))

include hws hxs hwidens few outline describes

theorem widenItems_object (hts : types (ws ++ xs) = ["object"]) :
    ∃ node', widenItems (.object ms) xs = .ok node' ∧ Describes .items (ws ++ xs) node' := by
  have hall : ∀ v ∈ ws ++ xs, v.type = "object" := fun v hv => Sample.type_of_types_eq hts hv
  have hne : ws ++ xs ≠ [] := fun hnil => by simp [hnil] at hts
  have htypes : types ws = [] ∨ types ws = ["object"] := by
    by_cases hnil : ws = []
    · exact .inl (Sample.types_eq_nil_iff.mpr hnil)
    · exact .inr (Sample.types_eq_singleton hnil fun w hw => hall w (List.mem_append_left _ hw))
  obtain ⟨middle, hmiddle, hdescribes⟩ := widenObjects_describes hxs hwidens
    (fun x hx => hall x (List.mem_append_right _ hx)) hws describes
  obtain ⟨node', hnode', hrequired⟩ := withRequired_describes hdescribes (commonKeys (ws ++ xs))
  refine ⟨node', ?_, .uniform (by simp [hts]) hrequired⟩
  rw [widenItems, plan_uniform outline few, hts, planFor, requiredSoFar_eq outline htypes, ok_bind,
    pure_eq_ok, ok_bind]
  simp only [hmiddle, ok_bind, requiredNames_of_ne_nil hne, hnode']

theorem widenItems_array (hts : types (ws ++ xs) = ["array"]) :
    ∃ node', widenItems (.object ms) xs = .ok node' ∧ Describes .items (ws ++ xs) node' := by
  have hall : ∀ v ∈ ws ++ xs, v.type = "array" := fun v hv => Sample.type_of_types_eq hts hv
  have hold : ∀ w ∈ ws, w.type = "array" := fun w hw => hall w (List.mem_append_left _ hw)
  rw [Sample.commonKeys_eq_nil_of_type hold (by decide)] at describes
  obtain ⟨node', hnode', hdescribes⟩ := widenArrays_describes hxs hwidens
    (fun x hx => hall x (List.mem_append_right _ hx)) hws hold describes
  rw [← Sample.commonKeys_eq_nil_of_type hall (by decide)] at hdescribes
  refine ⟨node', ?_, .uniform (by simp [hts]) hdescribes⟩
  rw [widenItems, plan_uniform outline few, hts, planFor, ok_bind]
  exact hnode'

omit hws hwidens in
theorem widenItems_scalar {t : String} (hts : types (ws ++ xs) = [t]) (hobject : t ≠ "object")
    (harray : t ≠ "array") :
    ∃ node', widenItems (.object ms) xs = .ok node' ∧ Describes .items (ws ++ xs) node' := by
  have hdescribes := typed_describes hxs describes hts hobject harray
  rw [← Sample.commonKeys_eq_nil_of_type (fun v hv => Sample.type_of_types_eq hts hv) hobject]
    at hdescribes
  refine ⟨_, ?_, .uniform (by simp [hts]) hdescribes⟩
  rw [widenItems, plan_uniform outline few, hts, planFor_scalar _ _ hobject harray]
  rfl

/-- What described the elements so far becomes the first variant, if there were any. -/
theorem widenItems_mixed {t u : String} {ts : List String} (hts : types (ws ++ xs) = t :: u :: ts) :
    ∃ node', widenItems (.object ms) xs = .ok node' ∧ Describes .items (ws ++ xs) node' := by
  have hmany : 2 ≤ (types (ws ++ xs)).length := by simp [hts]
  obtain ⟨cs, hcs, hfresh⟩ := variants_describe hxs hwidens
  rw [widenItems, plan_uniform outline few, hts, planFor_mixed, ok_bind]
  by_cases hnil : ws = []
  · refine ⟨_, ?_, addVariants_describes [] hxs hmany (by simp) (by simp) (by simp [hnil])
      .nil hfresh⟩
    simp [hnil, hcs, mixed]
  · have hone : (types ws).length = 1 := by
      have hpos : types ws ≠ [] := fun h => hnil (Sample.types_eq_nil_iff.mp h)
      have := List.length_pos_iff.mpr hpos
      omega
    have haccepts := describes.accepts hws (honest_commonKeys ws)
    refine ⟨_, ?_, addVariants_describes [⟨commonKeys ws, ws, .object ms⟩] hxs hmany
      ?_ ?_ ?_ (List.pairwise_singleton _ _) hfresh⟩
    · simp [hnil, hcs, mixed]
    · intro g hg
      rw [List.mem_singleton.mp hg]
      exact ⟨fun v hv => hv, hone, .inr rfl⟩
    · intro g hg
      rw [List.mem_singleton.mp hg]
      exact describes
    · exact fun w hw => ⟨_, List.mem_singleton_self _, haccepts w hw⟩

end

/-- The elements of one more array widen the node of elements. -/
theorem widenItems_describes {ws xs : List Sample} {node : Value} (hws : ∀ w ∈ ws, w.IsJson)
    (hxs : ∀ x ∈ xs, x.IsJson) (hwidens : ∀ x ∈ xs, Widens x) (h : Describes .items ws node) :
    ∃ node', widenItems node xs = .ok node' ∧ Describes .items (ws ++ xs) node' := by
  cases h with
  | @mixed _ groups many fits describes covers distinct =>
      obtain ⟨cs, hcs, hfresh⟩ := variants_describe hxs hwidens
      have hmany : 2 ≤ (types (ws ++ xs)).length :=
        Nat.le_trans many (Sample.length_types_le_append ws xs)
      refine ⟨_, ?_, addVariants_describes groups hxs hmany fits describes covers
        distinct hfresh⟩
      simp [widenItems, plan_mixed, hcs, grown, Members.insert]
  | uniform few describes =>
      obtain ⟨ms, rfl⟩ := exists_of_describes describes
      obtain ⟨ps, it, outline⟩ := describes.exists_outline
      -- The types of all elements, of this array and of those before, decide on the plan.
      rcases hts : types (ws ++ xs) with _ | ⟨t, _ | ⟨u, ts⟩⟩
      · have hnil := List.append_eq_nil_iff.mp (Sample.types_eq_nil_iff.mp hts)
        refine ⟨.object ms, ?_, ?_⟩
        · rw [widenItems, plan_uniform outline few, hts]
          rfl
        · rw [hnil.2, List.append_nil]
          exact .uniform few describes
      · by_cases hobject : t = "object"
        · exact widenItems_object hws hxs hwidens few outline describes (hobject ▸ hts)
        · by_cases harray : t = "array"
          · exact widenItems_array hws hxs hwidens few outline describes (harray ▸ hts)
          · exact widenItems_scalar hxs few outline describes hts hobject harray
      · exact widenItems_mixed hws hxs hwidens few outline describes hts

/-! ### Samples of any kind -/

/-- The node of elements before the elements of an array are taken in; without one it is empty. -/
theorem describes_openItems {required : List Scalar} {vs : List Sample} {ms ps : Members}
    {it t : Value} (outline : Outline required vs ms ps it)
    (elements : "array" ∈ types vs → Describes .items (elementsOf vs) it) :
    Describes .items (elementsOf vs) (openItems (Members.insert (.str "type") t ms)) := by
  have hfind : Members.find? (.str "items") (Members.insert (.str "type") t ms) =
      if "array" ∈ types vs then some it else none := by
    simpa using outline.items
  by_cases harray : "array" ∈ types vs
  · have h := elements harray
    rw [openItems, hfind, if_pos harray, Option.getD_some]
    by_cases htruthy : it.truthy
    · rwa [if_pos htruthy]
    · -- Of the nodes, only the empty one counts as missing.
      obtain ⟨ns, rfl⟩ := exists_of_describes h
      have hnil : ns = [] := by simpa [Value.truthy] using htruthy
      rw [if_neg htruthy]
      rwa [hnil] at h
  · rw [openItems, hfind, if_neg harray, Sample.elementsOf_eq_nil harray]
    exact describes_items_empty

theorem Outline.append_array {required : List Scalar} {vs : List Sample} {ms ps : Members}
    {it t : Value} {xs : List Sample} (h : Outline required vs ms ps it)
    (ht : typeEntry (types (vs ++ [.array xs])) = some t) (items : Value) :
    Outline required (vs ++ [.array xs])
      (Members.insert (.str "items") items (Members.insert (.str "type") t ms)) ps items where
  unique := Members.nodup_keys_insert ⟨_, rfl⟩ (Members.nodup_keys_insert ⟨_, rfl⟩ h.unique)
  known := by
    intro k hk
    rcases (Members.mem_keys_insert ⟨_, rfl⟩).mp hk with rfl | hk
    · exact ⟨"items", by decide, rfl⟩
    · exact h.known_insert (by decide) t k hk
  type := by simp [ht]
  isRequired := by simpa using h.isRequired
  properties := by
    have hne : (Sample.array xs).type ≠ "object" := by simp
    simpa [mem_types_append_singleton hne] using h.properties
  keys := by rw [h.keys, Sample.fieldKeys_append_of_keys_eq_nil vs rfl]
  items := by
    have hmem : "array" ∈ types (vs ++ [.array xs]) := mem_types_append_self vs _
    simp [hmem]

theorem widens_array {xs : List Sample} (hxs : ∀ x ∈ xs, x.IsJson)
    (hwidens : ∀ x ∈ xs, Widens x) : Widens (.array xs) := by
  intro required vs node hvs h
  cases h with
  | @node _ _ ms ps it outline fields elements =>
      obtain ⟨t, hmerge, ht⟩ := outline.mergeTypes (.array xs)
      have hopened : opened .array (some (.object ms)) =
          .ok (Members.insert (.str "type") t ms) := opened_eq_ok hmerge
      obtain ⟨items, hitems, hdescribes⟩ := widenItems_describes
        (fun w hw => Sample.isJson_of_mem_elementsOf hvs hw) hxs hwidens
        (describes_openItems (t := t) outline elements)
      refine ⟨_, ?_, .node (outline.append_array ht items) ?_ ?_⟩
      · simp only [widenNode, Sample.isContainer, if_true, widen_array, hopened, hitems, ok_bind,
          pure_eq_ok]
      · intro m hm
        rw [Sample.valuesAt_append_of_not_mem vs (by simp [Sample.keys])]
        exact fields m hm
      · intro _
        simpa [Sample.elementsOf_append, elementsOf, Sample.elements] using hdescribes

/-- Every JSON sample widens a node, whatever the node was widened by before. -/
theorem widens_of_isJson {v : Sample} (hv : v.IsJson) : Widens v := by
  induction hv with
  | scalar s => exact widens_plain rfl
  | array elements ih => exact widens_array elements ih
  | object text unique values ih => exact widens_object (.object text unique values) ih

end SchemaForge.Inference
