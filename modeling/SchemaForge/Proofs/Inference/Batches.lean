import SchemaForge.Proofs.Inference.Widening

/-!
Arrays in batches. A second array that is merged into the schema of a first one has nothing to go by but that
schema, and yet leads to the schema of both arrays in one, the order of keywords included: as long as all
elements are of one type, or the first array has brought a set of variants already, or has brought scalars of
one type, of which the schema says all that there is to say. Objects followed by something else are another
matter, because the first variant is then what all of the objects have in common.
-/

namespace SchemaForge.Inference

open Sample (types commonKeys plainTypes)

/-! ### Required names stand last -/

/-- The required names as members of a node; without names there are none. -/
def requiredMembers : List Scalar → Members
  | [] => []
  | k :: ks => [(.str "required", .array ((k :: ks).map .scalar))]

/-- In a node that requires nothing yet the names go to the end, and they take the place of others there. -/
theorem withRequired_append {ms : Members} (h : Members.find? (.str "required") ms = none)
    (old ks : List Scalar) :
    withRequired (some (ks.map .scalar)) (.object (ms ++ requiredMembers old)) =
      .ok (.object (ms ++ requiredMembers ks)) := by
  have hnew : Members.has (.str "required") ms = false := by simp [Members.has, h]
  cases ks with
  | nil =>
      have htail : Members.erase (.str "required") (requiredMembers old) = [] := by
        cases old <;> simp [requiredMembers, Members.erase]
      simp only [withRequired, List.map_nil, Value.members_object, ok_bind, pure_eq_ok,
        Members.erase_append, Members.erase_of_not_has hnew, htail]
      rfl
  | cons k ks =>
      have hinsert : ∀ v : Value,
          Members.insert (.str "required") v (ms ++ requiredMembers old) = ms ++ [(.str "required", v)] := by
        intro v
        cases old with
        | nil => rw [requiredMembers, List.append_nil, Members.insert_of_not_has hnew]
        | cons l ls =>
            rw [requiredMembers, ← Members.insert_of_not_has hnew, Members.insert_insert,
              Members.insert_of_not_has hnew]
      simp only [withRequired, List.map_cons, Value.members_object, ok_bind, pure_eq_ok, hinsert]
      rfl

theorem Outline.requiring {vs : List Sample} {ms ps : Members} {it : Value} (h : Outline [] vs ms ps it)
    (ks : List Scalar) : Outline ks vs (ms ++ requiredMembers ks) ps it := by
  have hnone : Members.find? (.str "required") ms = none := h.isRequired
  cases ks with
  | nil => simpa [requiredMembers] using h
  | cons k ks =>
      have hmembers : ms ++ requiredMembers (k :: ks) =
          Members.insert (.str "required") (.array ((k :: ks).map .scalar)) ms :=
        (Members.insert_of_not_has (by simp [Members.has, hnone])).symm
      rw [hmembers]
      exact ⟨Members.nodup_keys_insert ⟨_, rfl⟩ h.unique, h.known_insert (by decide) _,
        by simpa using h.type, by simp [requiredEntry], by simpa using h.properties, h.keys,
        by simpa using h.items⟩

/-- An object writes at keywords that a node of objects has, so required names that stand last stay last. -/
theorem widenNode_requiring {vs : List Sample} {ms ns ps : Members} {it : Value}
    {fields : List (Scalar × Sample)} (outline : Outline [] vs ms ps it) (hobject : "object" ∈ types vs)
    (ks : List Scalar) (h : widenNode (.object ms) (.object fields) = .ok (.object ns)) :
    widenNode (.object (ms ++ requiredMembers ks)) (.object fields) =
      .ok (.object (ns ++ requiredMembers ks)) := by
  obtain ⟨t, ht, hplain⟩ := widenNode_object outline fields
  obtain ⟨t', ht', hrequiring⟩ := widenNode_object (outline.requiring ks) fields
  rw [ht] at ht'
  cases ht'
  rw [h] at hplain
  obtain ⟨qs, hqs, heq⟩ := bind_eq_ok_iff.mp hplain.symm
  cases heq
  have htype : Members.has (.str "type") ms = true := by
    rw [Members.has, outline.type, typeEntry_eq_some (List.ne_nil_of_mem hobject), Option.isSome_some]
  have hproperties : Members.has (.str "properties") (Members.insert (.str "type") t ms) = true := by
    simp [Members.has, outline.find?_properties hobject]
  rw [hrequiring, hqs, ok_bind, Members.insert_append_of_has htype,
    Members.insert_append_of_has hproperties, pure_eq_ok]

theorem widenEach_requiring {xs : List Sample} (hxs : ∀ x ∈ xs, x.IsJson)
    (hobjects : ∀ x ∈ xs, x.type = "object") :
    ∀ {vs : List Sample} {ms ns : Members}, (∀ v ∈ vs, v.IsJson) → "object" ∈ types vs →
      Describes (.node []) vs (.object ms) → widenEach xs (.object ms) = .ok (.object ns) →
        ∀ ks : List Scalar, widenEach xs (.object (ms ++ requiredMembers ks)) =
          .ok (.object (ns ++ requiredMembers ks)) := by
  induction xs with
  | nil =>
      intro vs ms ns _ _ _ h ks
      cases h
      rfl
  | cons x xs ih =>
      intro vs ms ns hvs hobject hdescribes h ks
      obtain ⟨hx, hrest⟩ := List.forall_mem_cons.mp hxs
      obtain ⟨hxobject, hothers⟩ := List.forall_mem_cons.mp hobjects
      obtain ⟨fields, rfl⟩ := Sample.type_eq_object_iff.mp hxobject
      obtain ⟨ps, it, outline⟩ := hdescribes.exists_outline
      obtain ⟨middle, hmiddle, hdescribes'⟩ := widens_of_isJson hx hvs hdescribes
      obtain ⟨os, rfl⟩ := exists_of_describes hdescribes'
      rw [widenEach, hmiddle, ok_bind] at h
      have hvs' : ∀ v ∈ vs ++ [.object fields], v.IsJson :=
        List.forall_mem_append.mpr ⟨hvs, List.forall_mem_singleton.mpr hx⟩
      rw [widenEach, widenNode_requiring outline hobject ks hmiddle, ok_bind]
      exact ih hrest hothers hvs' (Sample.types_subset_append _ _ hobject) hdescribes' h ks

/-! ### Elements in batches -/

theorem outline_empty : Outline (commonKeys []) [] [] [] .null :=
  ⟨by simp [Members.keys], by simp [Members.keys], rfl, rfl, rfl, rfl, rfl⟩

theorem Describes.outline_of_few {ws : List Sample} {ms : Members} (h : Describes .items ws (.object ms))
    (few : (types ws).length ≤ 1) : ∃ ps it, Outline (commonKeys ws) ws ms ps it := by
  cases h with
  | uniform _ describes => exact describes.exists_outline
  | mixed many _ _ _ _ => omega

theorem variants_append (xs ys : List Sample) :
    variants (xs ++ ys) = (do return (← variants xs) ++ (← variants ys)) := by
  induction xs with
  | nil =>
      rw [List.nil_append, variants, ok_bind]
      cases variants ys <;> rfl
  | cons x xs ih => simp [variants, ih, bind_assoc]

theorem addVariants_append (nodes cs ds : List Value) :
    addVariants nodes (cs ++ ds) = addVariants (addVariants nodes cs) ds := by
  induction cs generalizing nodes with
  | nil => rfl
  | cons c cs ih => rw [List.cons_append, addVariants, addVariants, ih]

/-- Elements of several types are a set of variants from the start. -/
theorem widenItems_empty_of_mixed {xs : List Sample} (many : 2 ≤ (types xs).length) :
    widenItems (.object []) xs = (do return mixed [] (← variants xs)) := by
  rcases hts : types xs with _ | ⟨t, _ | ⟨u, ts⟩⟩
  · simp [hts] at many
  · simp [hts] at many
  · rw [widenItems_of_mixed (by simp) outline_empty (by simpa using hts), if_pos rfl]

section

variable {xs ys : List Sample} (hxs : ∀ x ∈ xs, x.IsJson) (hys : ∀ y ∈ ys, y.IsJson)

theorem widenItems_append_mixed (many : 2 ≤ (types xs).length) :
    (do widenItems (← widenItems (.object []) xs) ys) = widenItems (.object []) (xs ++ ys) := by
  have hmany : 2 ≤ (types (xs ++ ys)).length := Nat.le_trans many (Sample.length_types_le_append xs ys)
  rw [widenItems_empty_of_mixed many, widenItems_empty_of_mixed hmany, variants_append]
  simp only [mixed, addVariants_append, bind_assoc, pure_bind, widenItems_set]

include hxs

/-- Scalars of one type, each on its own and all of them together, have the same node. -/
theorem variants_of_scalars {t : String} (hscalar : t ∈ plainTypes) (hall : ∀ x ∈ xs, x.type = t) :
    variants xs = .ok (xs.map fun _ => .object [(.str "type", .str t)]) := by
  induction xs with
  | nil => rw [variants, List.map_nil]
  | cons x xs ih =>
      obtain ⟨hx, hxs⟩ := List.forall_mem_cons.mp hxs
      obtain ⟨rfl, hall⟩ := List.forall_mem_cons.mp hall
      have hplain : x.isContainer = false := by
        cases x with
        | array _ => simp [plainTypes] at hscalar
        | object _ => simp [plainTypes] at hscalar
        | scalar s => rfl
        | foreign f => rfl
      obtain ⟨t, ht, hnode⟩ := widenNode_plain outline_empty hplain
      obtain rfl : Value.str x.type = t := Option.some.inj ht
      rw [variants, widen_none hx, hnode, ok_bind, ih hxs hall]
      rfl

theorem widenItems_scalars {t : String} (hscalar : t ∈ plainTypes) (hts : types xs = [t]) :
    widenItems (.object []) xs = .ok (.object [(.str "type", .str t)]) := by
  have hobject : t ≠ "object" := fun h => absurd (h ▸ hscalar) (by decide)
  have harray : t ≠ "array" := fun h => absurd (h ▸ hscalar) (by decide)
  rw [widenItems_of_scalars hxs (by simp) outline_empty (by simpa using hts) hobject harray]
  rfl

end

theorem addVariants_self {node : Value} (hnode : node.IsJson) (xs : List Sample) :
    addVariants [node] (xs.map fun _ => node) = [node] := by
  induction xs with
  | nil => rfl
  | cons x xs ih => rw [List.map_cons, addVariants, if_pos (by simp [hnode.alike_self]), ih]

theorem addVariants_map_const {node : Value} (hnode : node.IsJson) {xs : List Sample} (hne : xs ≠ []) :
    addVariants [] (xs.map fun _ => node) = [node] := by
  cases xs with
  | nil => exact absurd rfl hne
  | cons x xs => exact addVariants_self hnode xs

section

variable {xs ys : List Sample} (hxs : ∀ x ∈ xs, x.IsJson) (hys : ∀ y ∈ ys, y.IsJson)

include hxs hys

theorem widenItems_append_scalars {t : String} (hscalar : t ∈ plainTypes) (hts : types xs = [t]) :
    (do widenItems (← widenItems (.object []) xs) ys) = widenItems (.object []) (xs ++ ys) := by
  have hobject : t ≠ "object" := fun h => absurd (h ▸ hscalar) (by decide)
  have harray : t ≠ "array" := fun h => absurd (h ▸ hscalar) (by decide)
  have hne : xs ≠ [] := fun hnil => by simp [hnil] at hts
  have hall : ∀ x ∈ xs, x.type = t := fun x hx => Sample.type_of_types_eq hts hx
  obtain ⟨node, hnode, hdescribes⟩ := widenItems_describes (by simp) hxs
    (fun x hx => widens_of_isJson (hxs x hx)) describes_items_empty
  have hnode' := widenItems_scalars hxs hscalar hts
  rw [hnode] at hnode'
  cases hnode'
  rw [List.nil_append] at hdescribes
  have few : (types xs).length ≤ 1 := by simp [hts]
  obtain ⟨ps, it, outline⟩ := hdescribes.outline_of_few few
  have hjson : (Value.object [(.str "type", .str t)]).IsJson := by simp [Members.keys]
  rw [hnode, ok_bind]
  rcases hwhole : types (xs ++ ys) with _ | ⟨u, _ | ⟨v, ts⟩⟩
  · exact absurd (List.append_eq_nil_iff.mp (Sample.types_eq_nil_iff.mp hwhole)).1 hne
  · obtain ⟨x, hx⟩ := List.exists_mem_of_ne_nil xs hne
    obtain rfl : t = u :=
      (hall x hx).symm.trans (Sample.type_of_types_eq hwhole (List.mem_append_left _ hx))
    have hboth : ∀ x ∈ xs ++ ys, x.IsJson := List.forall_mem_append.mpr ⟨hxs, hys⟩
    rw [widenItems_of_scalars hys few outline hwhole hobject harray,
      widenItems_scalars hboth hscalar hwhole]
    rfl
  · have hmany : 2 ≤ (types (xs ++ ys)).length := by simp [hwhole]
    rw [widenItems_of_mixed few outline hwhole, if_neg hne, widenItems_empty_of_mixed hmany,
      variants_append, variants_of_scalars hxs hscalar hall]
    simp only [mixed, ok_bind, bind_assoc, pure_bind, addVariants_append, addVariants_map_const hjson hne]

theorem widenItems_append_arrays (hne : xs ≠ []) (hts : types (xs ++ ys) = ["array"]) :
    (do widenItems (← widenItems (.object []) xs) ys) = widenItems (.object []) (xs ++ ys) := by
  have hall : ∀ x ∈ xs, x.type = "array" := fun x hx =>
    Sample.type_of_types_eq hts (List.mem_append_left _ hx)
  have htypes : types xs = ["array"] := Sample.types_eq_singleton hne hall
  have hboth : ∀ x ∈ xs ++ ys, x.IsJson := List.forall_mem_append.mpr ⟨hxs, hys⟩
  obtain ⟨node, hnode, hdescribes⟩ := widenEach_describes hxs (by simp) describes_empty
  obtain ⟨ms, rfl⟩ := exists_of_describes hdescribes
  rw [List.nil_append, ← Sample.commonKeys_eq_nil_of_type hall (by decide)] at hdescribes
  obtain ⟨ps, it, outline⟩ := hdescribes.exists_outline
  rw [widenItems_of_arrays hxs (by simp) outline_empty (by simpa using htypes),
    widenItems_of_arrays hboth (by simp) outline_empty (by simpa using hts), widenEach_append, hnode,
    ok_bind, ok_bind, widenItems_of_arrays hys (by simp [htypes]) outline hts]

theorem widenItems_append_objects (hne : xs ≠ []) (hts : types (xs ++ ys) = ["object"]) :
    (do widenItems (← widenItems (.object []) xs) ys) = widenItems (.object []) (xs ++ ys) := by
  have hall : ∀ x ∈ xs, x.type = "object" := fun x hx =>
    Sample.type_of_types_eq hts (List.mem_append_left _ hx)
  have hobjects : ∀ y ∈ ys, y.type = "object" := fun y hy =>
    Sample.type_of_types_eq hts (List.mem_append_right _ hy)
  have htypes : types xs = ["object"] := Sample.types_eq_singleton hne hall
  have hboth : ∀ x ∈ xs ++ ys, x.IsJson := List.forall_mem_append.mpr ⟨hxs, hys⟩
  -- The node of the first objects without required names, and the same widened by the others.
  obtain ⟨node, hnode, hdescribes⟩ := widenEach_describes hxs (by simp) describes_empty
  obtain ⟨ms, rfl⟩ := exists_of_describes hdescribes
  rw [List.nil_append] at hdescribes
  obtain ⟨ps, it, outline⟩ := hdescribes.exists_outline
  obtain ⟨node', hnode', hdescribes'⟩ := widenEach_describes hys hxs hdescribes
  obtain ⟨ns, rfl⟩ := exists_of_describes hdescribes'
  obtain ⟨qs, it', outline'⟩ := hdescribes'.exists_outline
  have hfirst : widenItems (.object []) xs =
      .ok (.object (ms ++ requiredMembers (commonKeys xs))) := by
    have h := withRequired_append outline.isRequired [] (commonKeys xs)
    rw [requiredMembers, List.append_nil] at h
    rw [widenItems_of_objects (by simp) hxs (by simp) outline_empty (by simpa using htypes), hnode,
      ok_bind, List.nil_append, requiredNames_of_ne_nil hne, h]
  have hsecond : widenEach ys (.object (ms ++ requiredMembers (commonKeys xs))) =
      .ok (.object (ns ++ requiredMembers (commonKeys xs))) :=
    widenEach_requiring hys hobjects hxs (by simp [htypes]) hdescribes hnode' _
  have hwhole := withRequired_append outline'.isRequired [] (commonKeys (xs ++ ys))
  rw [requiredMembers, List.append_nil] at hwhole
  rw [hfirst, ok_bind, widenItems_of_objects hxs hys (by simp [htypes]) (outline.requiring _) hts,
    widenItems_of_objects (by simp) hboth (by simp) outline_empty (by simpa using hts), hsecond,
    widenEach_append, hnode, ok_bind, ok_bind, hnode', ok_bind, List.nil_append,
    requiredNames_of_ne_nil (by simp [hne]), withRequired_append outline'.isRequired, hwhole]

end

/-- When the elements of a first array may be followed by those of a second one. -/
theorem widenItems_append {xs ys : List Sample} (hxs : ∀ x ∈ xs, x.IsJson) (hys : ∀ y ∈ ys, y.IsJson)
    (h : (∃ t, ∀ x ∈ xs ++ ys, x.type = t) ∨ 2 ≤ (types xs).length ∨
      ∃ t ∈ plainTypes, ∀ x ∈ xs, x.type = t) :
    (do widenItems (← widenItems (.object []) xs) ys) = widenItems (.object []) (xs ++ ys) := by
  by_cases hnil : xs = []
  · subst hnil
    rw [widenItems_of_nil (by simp) outline_empty rfl, ok_bind, List.nil_append]
  rcases h with ⟨t, hall⟩ | many | ⟨t, hscalar, hall⟩
  · have hts : types (xs ++ ys) = [t] := Sample.types_eq_singleton (by simp [hnil]) hall
    have htypes : types xs = [t] :=
      Sample.types_eq_singleton hnil fun x hx => hall x (List.mem_append_left _ hx)
    by_cases hobject : t = "object"
    · exact widenItems_append_objects hxs hys hnil (hobject ▸ hts)
    · by_cases harray : t = "array"
      · exact widenItems_append_arrays hxs hys hnil (harray ▸ hts)
      · refine widenItems_append_scalars hxs hys ?_ htypes
        obtain ⟨x, hx⟩ := List.exists_mem_of_ne_nil xs hnil
        obtain rfl := hall x (List.mem_append_left _ hx)
        cases x with
        | array _ => exact absurd rfl harray
        | object _ => exact absurd rfl hobject
        | scalar s => exact Sample.type_mem_plainTypes rfl
        | foreign f => exact Sample.type_mem_plainTypes rfl
  · exact widenItems_append_mixed many
  · exact widenItems_append_scalars hxs hys hscalar (Sample.types_eq_singleton hnil hall)

/-! ### Arrays in batches -/

theorem inferArray_none (xs : List Sample) :
    inferArray none (.array xs) =
      (do return .object [(.str "type", .str "array"), (.str "items", ← widenItems (.object []) xs)]) := by
  rw [inferArray, widen_array]
  rfl

theorem inferArray_some (xs : List Sample) (ms : Members) :
    inferArray (some (.object [(.str "type", .str "array"), (.str "items", .object ms)])) (.array xs) =
      (do return .object [(.str "type", .str "array"), (.str "items", ← widenItems (.object ms) xs)]) := by
  have hopened : opened .array
      (some (.object [(.str "type", .str "array"), (.str "items", .object ms)])) =
        .ok [(.str "type", .str "array"), (.str "items", .object ms)] := rfl
  have hitems : openItems [(.str "type", .str "array"), (.str "items", .object ms)] = .object ms := by
    cases ms <;> rfl
  rw [inferArray, widen_array, hopened, ok_bind, hitems]
  rfl

/-- Merging a second array into the schema of a first one is inferring the schema of both in one, if all
elements are of one type, or those of the first array are of several, or of one that is neither arrays nor
objects. -/
theorem inferArray_append {xs ys : List Sample} (hjson : ∀ x ∈ xs ++ ys, x.IsJson)
    (h : (∃ t, ∀ x ∈ xs ++ ys, x.type = t) ∨ 2 ≤ (types xs).length ∨
      ∃ t ∈ plainTypes, ∀ x ∈ xs, x.type = t) :
    ∃ first whole, inferArray none (.array xs) = .ok first ∧
      inferArray (some first) (.array ys) = .ok whole ∧
      inferArray none (.array (xs ++ ys)) = .ok whole := by
  obtain ⟨hxs, hys⟩ := List.forall_mem_append.mp hjson
  obtain ⟨node, hnode, hdescribes⟩ := widenItems_describes (by simp) hxs
    (fun x hx => widens_of_isJson (hxs x hx)) describes_items_empty
  obtain ⟨node', hnode', -⟩ := widenItems_describes (by simpa using hxs) hys
    (fun y hy => widens_of_isJson (hys y hy)) hdescribes
  obtain ⟨ms, rfl⟩ := exists_of_describes hdescribes
  have hwhole := widenItems_append hxs hys h
  rw [hnode, ok_bind, hnode'] at hwhole
  refine ⟨.object [(.str "type", .str "array"), (.str "items", .object ms)],
    .object [(.str "type", .str "array"), (.str "items", node')], ?_, ?_, ?_⟩
  · rw [inferArray_none, hnode]
    rfl
  · rw [inferArray_some, hnode']
    rfl
  · rw [inferArray_none, ← hwhole]
    rfl

/-- Rows in two batches, the second of which drops a name that the first one requires. -/
theorem inferArray_append_rows :
    inferArray (some (.object [(.str "type", .str "array"), (.str "items", .object [
        (.str "type", .str "object"), (.str "properties", .object [
          (.str "a", .object [(.str "type", .str "number")]),
          (.str "b", .object [(.str "type", .str "null")])]),
        (.str "required", .array [.str "a", .str "b"])])]))
      (.array [.object [(.str "c", .scalar (.bool true)), (.str "a", .scalar (.str "x"))]]) =
    inferArray none (.array [.object [(.str "a", .scalar (.int 1)), (.str "b", .scalar .null)],
      .object [(.str "c", .scalar (.bool true)), (.str "a", .scalar (.str "x"))]]) := by
  have hjson : ∀ x ∈ [Sample.object [(.str "a", .scalar (.int 1)), (.str "b", .scalar .null)]] ++
      [.object [(.str "c", .scalar (.bool true)), (.str "a", .scalar (.str "x"))]], x.IsJson := by
    simp
  obtain ⟨first, whole, hfirst, hsecond, hwhole⟩ := inferArray_append hjson (.inl ⟨"object", by simp⟩)
  cases hfirst
  exact hsecond.trans hwhole.symm

end SchemaForge.Inference
