import SchemaForge.Proofs.Inference.Elements

/-!
What one sample does to a node, as equations. A node says by its outline which of the cases of widening
apply, so each of them comes down to the parts of the sample: the values of an object widen the nodes at their
keys, and the elements of an array widen the items, as one node in turn or as variants of a set. What is to be
shown of widening is shown along these equations.
-/

namespace SchemaForge.Inference

open Sample (types fieldKeys valuesAt elementsOf commonKeys)

/-! ### Samples in turn -/

/-- A node widened by samples in turn. -/
def widenEach : List Sample → Value → Except Fault Value
  | [], node => .ok node
  | x :: xs, node => do widenEach xs (← widenNode node x)

theorem widenEach_append (xs ys : List Sample) (node : Value) :
    widenEach (xs ++ ys) node = (do widenEach ys (← widenEach xs node)) := by
  induction xs generalizing node with
  | nil => rfl
  | cons x xs ih => simp only [List.cons_append, widenEach, ih, bind_assoc]

/-- Objects in turn, with the names that they require noted beside the node. -/
theorem widenObjects_eq {xs : List Sample} (hxs : ∀ x ∈ xs, x.IsJson)
    (hobjects : ∀ x ∈ xs, x.type = "object") :
    ∀ {ws : List Sample} (node : Value), (∀ w ∈ ws, w.IsJson) →
      widenObjects xs (requiredNames ws) node =
        (do return (requiredNames (ws ++ xs), ← widenEach xs node)) := by
  induction xs with
  | nil =>
      intro ws node _
      simp [widenObjects, widenEach]
  | cons x xs ih =>
      intro ws node hws
      have hx : x.isContainer = true := by
        obtain ⟨fields, rfl⟩ := Sample.type_eq_object_iff.mp (hobjects x List.mem_cons_self)
        rfl
      have hws' : ∀ w ∈ ws ++ [x], w.IsJson := by
        simpa [or_imp, forall_and] using ⟨hws, hxs x List.mem_cons_self⟩
      have hrest := fun node => ih (fun y hy => hxs y (List.mem_cons_of_mem _ hy))
        (fun y hy => hobjects y (List.mem_cons_of_mem _ hy)) node hws'
      rw [widenObjects, narrowRequired_requiredNames hws, ok_bind,
        ← requiredNames_of_ne_nil (by simp), widenEach, widenNode, if_pos hx]
      simp only [hrest, bind_assoc, List.append_assoc, List.singleton_append]

/-- A node that arrays may widen as they are: it is empty, or it is one of arrays. -/
def TakesArrays (node : Value) : Prop :=
  node = .object [] ∨ node.getOrNull "type" = .ok (.str "array")

theorem takesArrays_of_widen {schema : Option Value} {xs : List Sample} {node : Value}
    (hschema : TakesArrays (schema.getD (.object []))) (h : widen schema (.array xs) = .ok node) :
    TakesArrays node := by
  rw [widen_array] at h
  obtain ⟨out, hopened, h⟩ := bind_eq_ok_iff.mp h
  obtain ⟨items, -, h⟩ := bind_eq_ok_iff.mp h
  cases h
  obtain ⟨ms, hms, hopened⟩ := bind_eq_ok_iff.mp hopened
  obtain ⟨type, htype, hopened⟩ := bind_eq_ok_iff.mp hopened
  cases hopened
  have harray : type = .str "array" := by
    rcases hschema with hempty | hschema
    · rw [hempty] at hms
      cases hms
      cases htype
      rfl
    · simp only [Value.getOrNull, Value.lookup, hms, ok_bind, pure_eq_ok, Except.ok.injEq] at hschema
      rw [hschema] at htype
      cases htype
      rfl
  exact .inr (by simp [Value.getOrNull, Value.lookup, harray])

/-- Arrays in turn. -/
theorem widenArrays_eq {xs : List Sample} (hxs : ∀ x ∈ xs, x.IsJson)
    (harrays : ∀ x ∈ xs, x.type = "array") :
    ∀ node : Value, TakesArrays node → widenArrays xs node = widenEach xs node := by
  induction xs with
  | nil =>
      intro node _
      rw [widenArrays, widenEach]
  | cons x xs ih =>
      intro node hnode
      obtain ⟨ys, rfl⟩ := Sample.type_eq_array_iff.mp (harrays x List.mem_cons_self)
      have hrest := ih (fun y hy => hxs y (List.mem_cons_of_mem _ hy))
        (fun y hy => harrays y (List.mem_cons_of_mem _ hy))
      -- Beginning anew and widening the empty node are the same.
      obtain ⟨schema, hstep, htakes⟩ : ∃ schema : Option Value,
          (do
            let type ← node.getOrNull "type"
            widenArrays xs (← widen (if type = .str "array" then some node else none) (.array ys))) =
            (do widenArrays xs (← widen schema (.array ys))) ∧
          widen schema (.array ys) = widenNode node (.array ys) ∧
          TakesArrays (schema.getD (.object [])) := by
        rcases hnode with rfl | hnode
        · exact ⟨none, rfl, widen_none (hxs _ List.mem_cons_self), .inl rfl⟩
        · exact ⟨some node, by rw [hnode]; rfl, rfl, .inr hnode⟩
      rw [widenArrays, hstep, widenEach, ← htakes.1]
      cases hwiden : widen schema (.array ys) with
      | error fault => rfl
      | ok node' => exact hrest node' (takesArrays_of_widen htakes.2 hwiden)

/-! ### The properties of an object -/

section Fields

variable {m : Scalar × Sample} {fields : List (Scalar × Sample)}
  (h : (Sample.object (m :: fields)).IsJson)

include h

theorem isJson_further : (Sample.object fields).IsJson := by
  obtain ⟨text, unique, values⟩ := Sample.isJson_object_iff.mp h
  exact .object (fun n hn => text n (List.mem_cons_of_mem _ hn)) (List.nodup_cons.mp unique).2
    fun n hn => values n (List.mem_cons_of_mem _ hn)

/-- The keys of an object are different, so what is written at the first is not found at the others. -/
theorem find?_insert_first (node : Value) (ps : Members) :
    ∀ n ∈ fields, Members.find? n.1 (Members.insert m.1 node ps) = Members.find? n.1 ps := by
  intro n hn
  obtain ⟨text, unique, -⟩ := Sample.isJson_object_iff.mp h
  have hne : m.1 ≠ n.1 := fun heq =>
    (List.nodup_cons.mp unique).1 (List.mem_map.mpr ⟨n, hn, heq.symm⟩)
  rw [Members.find?_insert (text n (List.mem_cons_of_mem _ hn)), if_neg hne]

end Fields

/-- What the values of an object make of properties: each of them widens the node at its key, or begins one,
and the nodes at other keys stay. -/
structure WidensAt (fields : List (Scalar × Sample)) (ps qs : Members) : Prop where
  widened : ∀ m ∈ fields, ∃ node,
    widenNode ((Members.find? m.1 ps).getD (.object [])) m.2 = .ok node ∧
      Members.find? m.1 qs = some node
  kept : ∀ k, k ∉ fields.map (·.1) → Members.find? k qs = Members.find? k ps

/-- The keys of an object are different, so each value meets the node that was there before the object. -/
theorem widensAt_of_widenProperties {fields : List (Scalar × Sample)}
    (hjson : (Sample.object fields).IsJson) :
    ∀ {ps qs : Members}, (∀ m ∈ fields, Members.find? m.1 ps ≠ some .null) →
      widenProperties fields ps = .ok qs → WidensAt fields ps qs := by
  induction fields with
  | nil =>
      intro ps qs _ h
      rw [widenProperties] at h
      cases h
      exact ⟨by simp, fun _ _ => rfl⟩
  | cons m fields ih =>
      intro ps qs hnull h
      obtain ⟨k, v⟩ := m
      obtain ⟨text, unique, values⟩ := Sample.isJson_object_iff.mp hjson
      have hnew := (List.nodup_cons.mp unique).1
      have hk : k.IsText := text _ List.mem_cons_self
      rw [widenProperties_cons fields (values _ List.mem_cons_self) (hnull _ List.mem_cons_self)] at h
      obtain ⟨node, hnode, h⟩ := bind_eq_ok_iff.mp h
      have hother := find?_insert_first hjson node ps
      have hrest := ih (isJson_further hjson)
        (fun n hn => hother n hn ▸ hnull n (List.mem_cons_of_mem _ hn)) h
      refine ⟨fun n hn => ?_, fun l hl => ?_⟩
      · rcases List.mem_cons.mp hn with rfl | hn
        · exact ⟨node, hnode, (hrest.kept k hnew).trans (Members.find?_insert_self k node ps)⟩
        · obtain ⟨node', hnode', hfind⟩ := hrest.widened n hn
          rw [hother n hn] at hnode'
          exact ⟨node', hnode', hfind⟩
      · obtain ⟨hlk, hl⟩ := not_or.mp (mt List.mem_cons.mpr hl)
        have hsame : k.same l = false := Scalar.same_comm l k ▸ Scalar.same_eq_false_of_ne hk hlk
        rw [hrest.kept l hl]
        exact Members.find?_insert_of_not_same hsame node ps

/-! ### One sample -/

section Node

variable {required : List Scalar} {vs : List Sample} {ms ps : Members} {it : Value}
  (outline : Outline required vs ms ps it)

include outline

theorem widenNode_plain {v : Sample} (hv : v.isContainer = false) :
    ∃ t, typeEntry (types (vs ++ [v])) = some t ∧
      widenNode (.object ms) v = .ok (.object (Members.insert (.str "type") t ms)) := by
  obtain ⟨t, hmerge, ht⟩ := outline.mergeTypes v
  exact ⟨t, ht, by simp [widenNode, hv, hmerge]⟩

theorem widenNode_object (fields : List (Scalar × Sample)) :
    ∃ t, typeEntry (types (vs ++ [.object fields])) = some t ∧
      widenNode (.object ms) (.object fields) = (do
        let qs ← widenProperties fields ps
        return .object (Members.insert (.str "properties") (.object qs)
          (Members.insert (.str "type") t ms))) := by
  obtain ⟨t, hmerge, ht⟩ := outline.mergeTypes (.object fields)
  have hopened : opened .object (some (.object ms)) = .ok (Members.insert (.str "type") t ms) :=
    opened_eq_ok hmerge
  have hfind : Members.find? (.str "properties") (Members.insert (.str "type") t ms) =
      if "object" ∈ types vs then some (.object ps) else none := by
    simpa using outline.properties
  have hnil : "object" ∉ types vs → ps = [] := by
    intro hnone
    have hkeys : Members.keys ps = [] := outline.keys.trans (Sample.fieldKeys_eq_nil_of_types hnone)
    exact List.map_eq_nil_iff.mp hkeys
  refine ⟨t, ht, ?_⟩
  simp only [widenNode, Sample.isContainer, if_true, widen, hopened,
    openProperties_eq fields hfind hnil, ok_bind]

theorem widenNode_array (xs : List Sample) :
    ∃ t, typeEntry (types (vs ++ [.array xs])) = some t ∧
      widenNode (.object ms) (.array xs) = (do
        let items ← widenItems (openItems (Members.insert (.str "type") t ms)) xs
        return .object (Members.insert (.str "items") items (Members.insert (.str "type") t ms))) := by
  obtain ⟨t, hmerge, ht⟩ := outline.mergeTypes (.array xs)
  have hopened : opened .array (some (.object ms)) = .ok (Members.insert (.str "type") t ms) :=
    opened_eq_ok hmerge
  refine ⟨t, ht, ?_⟩
  simp only [widenNode, Sample.isContainer, if_true, widen_array, hopened, ok_bind]

/-- The items that an array widens are those of the node, if it has any. -/
theorem openItems_eq {t : Value} {ws : List Sample} (harray : "array" ∈ types vs)
    (h : Describes .items ws it) : openItems (Members.insert (.str "type") t ms) = it := by
  have hfind : Members.find? (.str "items") (Members.insert (.str "type") t ms) = some it := by
    simpa [harray] using outline.items
  obtain ⟨ns, rfl⟩ := exists_of_describes h
  rw [openItems, hfind, Option.getD_some]
  cases ns with
  | nil => rfl
  | cons n ns => rfl

end Node

/-! ### The elements of an array -/

theorem widenItems_set (set : List Value) (xs : List Sample) :
    widenItems (.object [(.str "oneOf", .array set)]) xs =
      (do return .object [(.str "oneOf", .array (addVariants set (← variants xs)))]) := by
  simp [widenItems, plan_mixed, grown, Members.insert]

section Items

/-! Elements after others that were all of one type, by the types of all of them. -/

variable {ws xs : List Sample} {ms ps : Members} {it : Value} (hws : ∀ w ∈ ws, w.IsJson)
  (hxs : ∀ x ∈ xs, x.IsJson) (few : (types ws).length ≤ 1)
  (outline : Outline (commonKeys ws) ws ms ps it)

include few outline

theorem widenItems_of_nil (hts : types (ws ++ xs) = []) :
    widenItems (.object ms) xs = .ok (.object ms) := by
  rw [widenItems, plan_uniform outline few, hts]
  rfl

theorem widenItems_of_mixed {t u : String} {ts : List String} (hts : types (ws ++ xs) = t :: u :: ts) :
    widenItems (.object ms) xs =
      (do return mixed (if ws = [] then [] else [.object ms]) (← variants xs)) := by
  rw [widenItems, plan_uniform outline few, hts, planFor_mixed, ok_bind]

include hxs

theorem widenItems_of_scalars {t : String} (hts : types (ws ++ xs) = [t]) (hobject : t ≠ "object")
    (harray : t ≠ "array") :
    widenItems (.object ms) xs = .ok (.object (Members.insert (.str "type") (.str t) ms)) := by
  have hformats : xs.filterMap Sample.format = [] :=
    List.filterMap_eq_nil_iff.mpr fun x hx => format_of_isJson (hxs x hx)
  rw [widenItems, plan_uniform outline few, hts, planFor_scalar _ _ hobject harray, ok_bind]
  dsimp only
  rw [hformats]
  rfl

theorem widenItems_of_arrays (hts : types (ws ++ xs) = ["array"]) :
    widenItems (.object ms) xs = widenEach xs (.object ms) := by
  have hall : ∀ v ∈ ws ++ xs, v.type = "array" := fun v hv => Sample.type_of_types_eq hts hv
  have htakes : TakesArrays (.object ms) := by
    by_cases hnil : ws = []
    · subst hnil
      exact .inl (by rw [outline.eq_nil])
    · have htype := outline.type
      rw [Sample.types_eq_singleton hnil fun w hw => hall w (List.mem_append_left _ hw)] at htype
      exact .inr (by simp [Value.getOrNull, Value.lookup, htype, typeEntry])
  rw [widenItems, plan_uniform outline few, hts, planFor, ok_bind]
  exact widenArrays_eq hxs (fun x hx => hall x (List.mem_append_right _ hx)) _ htakes

include hws

theorem widenItems_of_objects (hts : types (ws ++ xs) = ["object"]) :
    widenItems (.object ms) xs =
      (do withRequired (requiredNames (ws ++ xs)) (← widenEach xs (.object ms))) := by
  have hall : ∀ v ∈ ws ++ xs, v.type = "object" := fun v hv => Sample.type_of_types_eq hts hv
  have htypes : types ws = [] ∨ types ws = ["object"] := by
    by_cases hnil : ws = []
    · exact .inl (Sample.types_eq_nil_iff.mpr hnil)
    · exact .inr (Sample.types_eq_singleton hnil fun w hw => hall w (List.mem_append_left _ hw))
  rw [widenItems, plan_uniform outline few, hts, planFor, requiredSoFar_eq outline htypes, ok_bind,
    pure_eq_ok, ok_bind]
  dsimp only
  rw [widenObjects_eq hxs (fun x hx => hall x (List.mem_append_right _ hx)) _ hws]
  simp only [bind_assoc, pure_eq_ok, ok_bind]

/-- The ways in which elements change a node of elements of one type, by the types of all of them: they widen
it in turn, or name its type, or become variants beside it. -/
inductive WidensUniform (ws xs : List Sample) (ms : Members) (node' : Value) : Prop where
  | none (isEmpty : types (ws ++ xs) = []) (same : node' = .object ms) : WidensUniform ws xs ms node'
  | objects {middle : Value} (areObjects : types (ws ++ xs) = ["object"])
      (each : widenEach xs (.object ms) = .ok middle)
      (narrowed : withRequired (requiredNames (ws ++ xs)) middle = .ok node') :
      WidensUniform ws xs ms node'
  | arrays (areArrays : types (ws ++ xs) = ["array"]) (each : widenEach xs (.object ms) = .ok node') :
      WidensUniform ws xs ms node'
  | scalars {t : String} (areScalars : types (ws ++ xs) = [t]) (notObject : t ≠ "object")
      (notArray : t ≠ "array") (named : node' = .object (Members.insert (.str "type") (.str t) ms)) :
      WidensUniform ws xs ms node'
  | mixed {cs : List Value} (many : 2 ≤ (types (ws ++ xs)).length) (own : variants xs = .ok cs)
      (set : node' = Inference.mixed (if ws = [] then [] else [.object ms]) cs) :
      WidensUniform ws xs ms node'

theorem widensUniform_of_widenItems {node' : Value} (h : widenItems (.object ms) xs = .ok node') :
    WidensUniform ws xs ms node' := by
  rcases hts : types (ws ++ xs) with _ | ⟨t, _ | ⟨u, ts⟩⟩
  · rw [widenItems_of_nil few outline hts] at h
    exact .none hts (Except.ok.inj h).symm
  · by_cases hobject : t = "object"
    · subst hobject
      rw [widenItems_of_objects hws hxs few outline hts] at h
      obtain ⟨middle, each, narrowed⟩ := bind_eq_ok_iff.mp h
      exact .objects hts each narrowed
    · by_cases harray : t = "array"
      · subst harray
        rw [widenItems_of_arrays hxs few outline hts] at h
        exact .arrays hts h
      · rw [widenItems_of_scalars hxs few outline hts hobject harray] at h
        exact .scalars hts hobject harray (Except.ok.inj h).symm
  · rw [widenItems_of_mixed few outline hts] at h
    obtain ⟨cs, own, h⟩ := bind_eq_ok_iff.mp h
    exact .mixed (by simp [hts]) own (Except.ok.inj h).symm

end Items

end SchemaForge.Inference
