import Mathlib.Data.Set.List
import SchemaForge.Proofs.Lists
import SchemaForge.Proofs.Schema.WellKept
import SchemaForge.Schema.Required

/-!
What rewriting whole documents does to their nodes. Bringing a document into normal form and setting the
switch for required fields both replace the value at one keyword of a node and go on below it, or add a
keyword that was missing. Whatever does no more than that keeps a document well kept; this is proved once,
by induction on the document, and each of the two only has to be read at one node.
-/

namespace SchemaForge

namespace Members

/-- Members with the value at one keyword replaced. -/
def mapAt (word : String) (f : Value → Value) (ms : Members) : Members :=
  ms.map fun m => if m.1 = .str word then (m.1, f m.2) else m

@[simp] theorem keys_mapAt (word : String) (f : Value → Value) (ms : Members) :
    keys (mapAt word f ms) = keys ms := by
  rw [keys, mapAt, List.map_map]
  refine List.map_congr_left fun m _ => ?_
  by_cases h : m.1 = .str word <;> simp [h]

theorem find?_mapAt (word w : String) (f : Value → Value) (ms : Members) :
    find? (.str w) (mapAt word f ms) =
      if w = word then (find? (.str w) ms).map f else find? (.str w) ms := by
  induction ms with
  | nil => simp [mapAt]
  | cons m ms ih =>
      obtain ⟨k, v⟩ := m
      rw [mapAt, List.map_cons, ← mapAt]
      by_cases hk : k = .str w
      · subst hk
        by_cases hw : w = word <;> simp [find?, hw]
      · have hsame : k.same (.str w) = false := Scalar.same_eq_false_of_ne ⟨_, rfl⟩ hk
        have hkey : (if k = .str word then (k, f v) else (k, v)).1 = k := by split <;> rfl
        rw [find?.eq_def]
        simp only [hkey, hsame, find?, Bool.false_eq_true, if_false, ih]

/-- What is found at another key, be it a text or not, stays. -/
theorem find?_mapAt_of_ne {word : String} {k : Scalar} (hk : k ≠ .str word) (f : Value → Value) (ms : Members) :
    find? k (mapAt word f ms) = find? k ms := by
  induction ms with
  | nil => rfl
  | cons m ms ih =>
      obtain ⟨l, v⟩ := m
      rw [mapAt, List.map_cons, ← mapAt]
      by_cases hl : l = .str word
      · subst hl
        simp only [find?, Scalar.str_same_eq_false_of_ne hk, if_true, Bool.false_eq_true, if_false, ih]
      · simp only [find?, hl, if_false, ih]

theorem find?_mapAt_eq_map (word : String) (f : Value → Value) (k : Scalar) (ms : Members) :
    find? k (mapAt word f ms) = (find? k ms).map fun v => if k = .str word then f v else v := by
  by_cases hk : k = .str word
  · subst hk
    simp [find?_mapAt]
  · simp [find?_mapAt_of_ne hk, hk]

theorem hereditary_mapAt {K : Scalar → Prop} {P : Value → Prop} (hP : Value.Hereditary K P) {word : String}
    {f : Value → Value} {ms : Members} (hms : P (.object ms))
    (hf : ∀ v, find? (.str word) ms = some v → P (f v)) : P (.object (mapAt word f ms)) := by
  obtain ⟨ofKey, distinct, values⟩ := (hP.object_iff ms).mp hms
  refine (hP.object_iff _).mpr ⟨fun n hn => ?_, ?_, fun n hn => ?_⟩
  · have hmem : n.1 ∈ keys (mapAt word f ms) := List.mem_map_of_mem hn
    rw [keys_mapAt] at hmem
    obtain ⟨m, hm, hkey⟩ := List.mem_map.mp hmem
    exact hkey ▸ ofKey m hm
  · rwa [distinct_iff_keys, keys_mapAt, ← distinct_iff_keys]
  · obtain ⟨m, hm, rfl⟩ := List.mem_map.mp hn
    split
    · next hkey => exact hf _ (distinct.find? hm (by rw [hkey, Scalar.same_self]))
    · exact values m hm

theorem keys_map_values (f : Value → Value) (ms : Members) : keys (ms.map fun m => (m.1, f m.2)) = keys ms := by
  rw [keys, List.map_map]
  rfl

theorem find?_map_values (k : Scalar) (f : Value → Value) (ms : Members) :
    find? k (ms.map fun m => (m.1, f m.2)) = (find? k ms).map f := by
  induction ms with
  | nil => rfl
  | cons m ms ih =>
      rw [List.map_cons, find?, find?, ih]
      split <;> rfl

/-- Properties of which those that are picked are rewritten. -/
def mapPicked (picked : Value → Bool) (f : Value → Value) (ps : Members) : Members :=
  ps.map fun m => (m.1, if picked m.2 then f m.2 else m.2)

@[simp] theorem keys_mapPicked (picked : Value → Bool) (f : Value → Value) (ps : Members) :
    keys (mapPicked picked f ps) = keys ps :=
  keys_map_values (fun v => if picked v then f v else v) ps

theorem find?_mapPicked (k : Scalar) (picked : Value → Bool) (f : Value → Value) (ps : Members) :
    find? k (mapPicked picked f ps) = (find? k ps).map fun v => if picked v then f v else v :=
  find?_map_values k (fun v => if picked v then f v else v) ps

theorem mem_mapPicked {picked : Value → Bool} {f : Value → Value} {ps : Members}
    {n : Scalar × Value} (hn : n ∈ mapPicked picked f ps) :
    ∃ m ∈ ps, n.1 = m.1 ∧ (n.2 = m.2 ∨ n.2 = f m.2) := by
  obtain ⟨m, hm, rfl⟩ := List.mem_map.mp hn
  refine ⟨m, hm, rfl, ?_⟩
  by_cases h : picked m.2
  · exact .inr (if_pos h)
  · exact .inl (if_neg h)

theorem hereditary_mapPicked {K : Scalar → Prop} {P : Value → Prop} (hP : Value.Hereditary K P)
    {picked : Value → Bool} {f : Value → Value} {ps : Members} (hps : P (.object ps))
    (hf : ∀ m ∈ ps, P (f m.2)) : P (.object (mapPicked picked f ps)) := by
  obtain ⟨ofKey, distinct, values⟩ := (hP.object_iff ps).mp hps
  refine (hP.object_iff _).mpr ⟨fun n hn => ?_, ?_, fun n hn => ?_⟩
  · obtain ⟨m, hm, hkey, -⟩ := mem_mapPicked hn
    exact hkey ▸ ofKey m hm
  · rwa [distinct_iff_keys, keys_mapPicked, ← distinct_iff_keys]
  · obtain ⟨m, hm, -, hvalue | hvalue⟩ := mem_mapPicked hn
    · exact hvalue ▸ values m hm
    · exact hvalue ▸ hf m hm

end Members

namespace Schema

open Members (mapAt mapPicked)

/-! ### Rewriting a node -/

/-- What a rewriting `f` makes of a node: its properties stay or are rewritten in place, or it gets empty
ones in place of such that are no object; its items stay, are rewritten, or become a text; and what it
requires afterwards it required before, or it is all that there is. -/
structure Rewrites (f : Value → Value) (ms ns : Members) : Prop where
  properties :
    Members.find? (.str "properties") ns = Members.find? (.str "properties") ms ∨
    (∃ ps picked, Members.find? (.str "properties") ms = some (.object ps) ∧
      Members.find? (.str "properties") ns = some (.object (mapPicked picked f ps))) ∨
    ((∀ ps, Members.find? (.str "properties") ms ≠ some (.object ps)) ∧
      Members.find? (.str "properties") ns = some (.object []))
  items : ∀ w, Members.find? (.str "items") ns = some w →
    w = stringNode ∨ ∃ v, Members.find? (.str "items") ms = some v ∧ (w = v ∨ w = f v)
  required : ∀ r, Members.find? (.str "required") ns = some r →
    Members.find? (.str "required") ms = some r ∨
      ∃ ps, Members.find? (.str "properties") ms = some (.object ps) ∧ r = allNames ps

theorem allNames_eq (ps : Members) : allNames ps = .array ((Members.keys ps).map .scalar) := by
  rw [allNames, Members.keys, List.map_map]
  rfl

/-- All names of an object that JSON has a form for make a list of them. -/
theorem lists_allNames {ps : Members} (hps : (Value.object ps).IsJson) :
    Lists (allNames ps) (Members.keys ps) := by
  obtain ⟨text, unique, -⟩ := Value.isJson_object_iff.mp hps
  obtain ⟨names, hnames⟩ : Members.keys ps ∈ Set.range (List.map Scalar.str) := by
    rw [Set.range_list_map]
    intro k hk
    obtain ⟨m, hm, rfl⟩ := List.mem_map.mp hk
    obtain ⟨name, hname⟩ := text m hm
    exact ⟨name, hname.symm⟩
  refine ⟨names, ?_, ?_, fun n hn => hnames.symm ▸ List.mem_map_of_mem hn⟩
  · rw [allNames_eq, ← hnames, List.map_map]
    rfl
  · rw [← hnames] at unique
    exact unique.of_map _

theorem wellKept_stringNode : WellKept stringNode :=
  .of_parts (by simp) (by simp) (by simp)

section Rewriting

variable {f : Value → Value}

/-- The names that a rewritten node requires are those of its properties. -/
theorem Rewrites.lists {ms ns : Members} (h : Rewrites f ms ns) (hms : (Value.object ms).IsJson)
    (hkept : Kept ms) :
    ∀ r, Members.find? (.str "required") ns = some r → Lists r (propertyKeys ns) := by
  intro r hr
  have hkeys : propertyKeys ns = propertyKeys ms := by
    rcases h.properties with heq | ⟨ps, picked, hps, hqs⟩ | ⟨hnone, hnew⟩
    · rw [propertyKeys, heq, propertyKeys]
    · rw [propertyKeys_of_find? hps, propertyKeys_of_find? hqs, Members.keys_mapPicked]
    · rw [propertyKeys_of_find? hnew, propertyKeys]
      split
      · next ps hps => exact absurd hps (hnone ps)
      · rfl
  rw [hkeys]
  rcases h.required r hr with hold | ⟨ps, hps, rfl⟩
  · exact hkept.required r hold
  · rw [propertyKeys_of_find? hps]
    exact lists_allNames (Members.isJson_of_find? hms hps)

/-- Whatever rewrites the nodes of a document one by one keeps it well kept. -/
theorem WellKept.rewrite (hnode : ∀ ms, ∃ ns, f (.object ms) = .object ns ∧ Rewrites f ms ns)
    (hother : ∀ v, (∀ ms, v ≠ .object ms) → f v = v) {doc : Value} (hdoc : doc.IsJson)
    (h : WellKept doc) : WellKept (f doc) := by
  refine hdoc.keyword_induction (P := fun v => WellKept v → WellKept (f v)) ?_ ?_ h
  · intro v _ hv h
    rwa [hother v hv]
  · intro ms hms ih h
    obtain ⟨ns, heq, hns⟩ := hnode ms
    rw [heq]
    refine .of_parts (fun v hv => ?_) (fun v hv => ?_) (hns.lists hms h.kept)
    · rcases hns.properties with hold | ⟨ps, picked, hps, hqs⟩ | ⟨-, hnew⟩
      · rw [hold] at hv
        obtain ⟨ps, rfl, -⟩ := h.kept.properties v hv
        exact ⟨ps, rfl, h.isKeptNode (Members.isJson_of_find? hms hv) hv⟩
      · rw [hqs] at hv
        cases hv
        refine ⟨_, rfl, fun n hn => ?_⟩
        obtain ⟨m, hm, -, hvalue⟩ := Members.mem_mapPicked hn
        obtain ⟨⟨rs, hrs⟩, hkept⟩ := h.isKeptNode (Members.isJson_of_find? hms hps) hps m hm
        rcases hvalue with hvalue | hvalue
        · rw [hvalue]
          exact ⟨⟨rs, hrs⟩, hkept⟩
        · obtain ⟨rs', hrs', -⟩ := hnode rs
          rw [hvalue]
          exact ⟨⟨rs', by rw [hrs, hrs']⟩, (ih _ _ hps).members ps rfl m hm hkept⟩
      · rw [hnew] at hv
        cases hv
        exact ⟨[], rfl, by simp⟩
    · rcases hns.items v hv with rfl | ⟨item, hitem, rfl | rfl⟩
      · exact wellKept_stringNode
      · exact h.items hitem
      · exact (ih _ _ hitem).self (h.items hitem)

/-! ### Rewriting at one keyword -/

theorem rewrites_self (f : Value → Value) (ms : Members) : Rewrites f ms ms :=
  ⟨.inl rfl, fun w hw => .inr ⟨w, hw, .inl rfl⟩, fun _ hr => .inl hr⟩

/-- What changes none of the three keywords is no change. -/
theorem Rewrites.of_agree {ms ns os : Members} (h : Rewrites f ms ns)
    (agree : ∀ w ∈ ["properties", "items", "required"],
      Members.find? (.str w) os = Members.find? (.str w) ns) : Rewrites f ms os where
  properties := by
    rw [agree "properties" (by simp)]
    exact h.properties
  items := by
    rw [agree "items" (by simp)]
    exact h.items
  required := by
    rw [agree "required" (by simp)]
    exact h.required

theorem rewrites_properties {g : Value → Value} {picked : Value → Bool}
    (hobject : ∀ ps, g (.object ps) = .object (mapPicked picked f ps))
    (hother : ∀ v, (∀ ps, v ≠ .object ps) → g v = v ∨ g v = .object []) (ms : Members) :
    Rewrites f ms (mapAt "properties" g ms) where
  properties := by
    rw [Members.find?_mapAt, if_pos rfl]
    rcases hfind : Members.find? (.str "properties") ms with _ | v
    · exact .inl rfl
    · by_cases hv : ∃ ps, v = .object ps
      · obtain ⟨ps, rfl⟩ := hv
        exact .inr (.inl ⟨ps, picked, rfl, by rw [Option.map_some, hobject]⟩)
      · have hv : ∀ ps, v ≠ .object ps := fun ps h => hv ⟨ps, h⟩
        rcases hother v hv with heq | heq
        · exact .inl (by rw [Option.map_some, heq])
        · exact .inr (.inr ⟨by simpa using hv, by rw [Option.map_some, heq]⟩)
  items := by
    intro w hw
    rw [Members.find?_mapAt, if_neg (by simp)] at hw
    exact .inr ⟨w, hw, .inl rfl⟩
  required := by
    intro r hr
    rw [Members.find?_mapAt, if_neg (by simp)] at hr
    exact .inl hr

theorem rewrites_items {g : Value → Value} (hg : ∀ v, g v = f v ∨ g v = stringNode)
    (ms : Members) : Rewrites f ms (mapAt "items" g ms) where
  properties := .inl (by rw [Members.find?_mapAt, if_neg (by simp)])
  items := by
    intro w hw
    rw [Members.find?_mapAt, if_pos rfl] at hw
    obtain ⟨v, hv, rfl⟩ := Option.map_eq_some_iff.mp hw
    rcases hg v with heq | heq
    · exact .inr ⟨v, hv, .inr heq⟩
    · exact .inl heq
  required := by
    intro r hr
    rw [Members.find?_mapAt, if_neg (by simp)] at hr
    exact .inl hr

end Rewriting

/-! ### The switch for required fields -/

def switchedProperties (required : Bool) : Value → Value
  | .object ps => .object (switchEach required ps)
  | v => v

theorem switchProperties_eq_mapAt (required : Bool) (ms : Members) :
    switchProperties required ms = mapAt "properties" (switchedProperties required) ms := by
  induction ms with
  | nil => simp [switchProperties, mapAt]
  | cons m ms ih =>
      obtain ⟨k, v⟩ := m
      rw [switchProperties.eq_def]
      cases v <;> by_cases hk : k = .str "properties" <;>
        simp [hk, mapAt, switchedProperties, ih]

theorem switchedProperties_object (required : Bool) (ps : Members) :
    switchedProperties required (.object ps) =
      .object (mapPicked declaresContainer (switchRequired required) ps) := by
  rw [switchedProperties, switchEach_eq_map]
  rfl

theorem switchItems_eq_mapAt (required : Bool) (ms : Members) :
    switchItems required ms = mapAt "items" (switchRequired required) ms := by
  induction ms with
  | nil => simp [switchItems, mapAt]
  | cons m ms ih =>
      obtain ⟨k, v⟩ := m
      rw [switchItems.eq_def]
      by_cases hk : k = .str "items" <;> simp [hk, mapAt, ih]

section Equations

variable {ms : Members} (required : Bool)

theorem switchRequired_of_object {ps : Members}
    (isObject : Members.find? (.str "type") ms = some (.str "object"))
    (properties : Members.find? (.str "properties") ms = some (.object ps)) :
    switchRequired required (.object ms) =
      .object (switchNames required ps (mapAt "properties" (switchedProperties required) ms)) := by
  rw [switchRequired]
  simp only [isObject, properties, switchProperties_eq_mapAt]

theorem switchRequired_of_array
    (isArray : Members.find? (.str "type") ms = some (.str "array")) :
    switchRequired required (.object ms) =
      .object (mapAt "items" (switchRequired required) ms) := by
  rw [switchRequired]
  simp only [isArray, switchItems_eq_mapAt]

end Equations

/-- What the switch does to a node, by its type. -/
theorem switchRequired_cases (required : Bool) (ms : Members) :
    (∃ ps, Members.find? (.str "type") ms = some (.str "object") ∧
        Members.find? (.str "properties") ms = some (.object ps) ∧
        switchRequired required (.object ms) =
          .object (switchNames required ps
            (mapAt "properties" (switchedProperties required) ms))) ∨
      (Members.find? (.str "type") ms = some (.str "array") ∧
        switchRequired required (.object ms) =
          .object (mapAt "items" (switchRequired required) ms)) ∨
      switchRequired required (.object ms) = .object ms := by
  rw [switchRequired]
  split
  · next isObject =>
      split
      · next ps hps => exact .inl ⟨ps, isObject, hps, by rw [switchProperties_eq_mapAt]⟩
      · exact .inr (.inr rfl)
  · next isArray => exact .inr (.inl ⟨isArray, by rw [switchItems_eq_mapAt]⟩)
  · exact .inr (.inr rfl)

theorem find?_switchNames_of_not_same (required : Bool) (ps ms : Members) {k : Scalar}
    (hk : (Scalar.str "required").same k = false) :
    Members.find? k (switchNames required ps ms) = Members.find? k ms := by
  cases required with
  | true => exact Members.find?_insert_of_not_same hk _ ms
  | false => exact Members.find?_erase_of_not_same hk ms

theorem find?_switchNames_of_ne (required : Bool) (ps ms : Members) {w : String}
    (hw : "required" ≠ w) :
    Members.find? (.str w) (switchNames required ps ms) = Members.find? (.str w) ms :=
  find?_switchNames_of_not_same required ps ms (Scalar.str_same_eq_false_of_ne (by simpa using hw.symm))

/-- The properties of an object node after the switch. -/
theorem find?_properties_switched (required : Bool) {ms ps : Members}
    (properties : Members.find? (.str "properties") ms = some (.object ps)) :
    Members.find? (.str "properties")
        (switchNames required ps (mapAt "properties" (switchedProperties required) ms)) =
      some (.object (mapPicked declaresContainer (switchRequired required) ps)) := by
  rw [find?_switchNames_of_ne _ _ _ (by simp), Members.find?_mapAt, if_pos rfl, properties,
    Option.map_some, switchedProperties_object]

theorem Rewrites.switchNames {f : Value → Value} {ms ns ps : Members} (h : Rewrites f ms ns)
    (hps : Members.find? (.str "properties") ms = some (.object ps)) (required : Bool) :
    Rewrites f ms (switchNames required ps ns) where
  properties := by
    rw [find?_switchNames_of_ne _ _ _ (by simp)]
    exact h.properties
  items := by
    rw [find?_switchNames_of_ne _ _ _ (by simp)]
    exact h.items
  required := by
    intro r hr
    cases required with
    | true =>
        rw [Schema.switchNames, if_pos rfl, Members.find?_insert_self] at hr
        exact .inr ⟨ps, hps, (Option.some.inj hr).symm⟩
    | false => simp [Schema.switchNames, Members.find?_erase_self] at hr

theorem rewrites_switchRequired (required : Bool) (ms : Members) :
    ∃ ns, switchRequired required (.object ms) = .object ns ∧
      Rewrites (switchRequired required) ms ns := by
  rcases switchRequired_cases required ms with ⟨ps, -, hps, heq⟩ | ⟨-, heq⟩ | heq
  · refine ⟨_, heq, (rewrites_properties (switchedProperties_object required) ?_ ms).switchNames
      hps required⟩
    intro v hv
    cases v with
    | object ps => exact absurd rfl (hv ps)
    | _ => exact .inl rfl
  · exact ⟨_, heq, rewrites_items (fun _ => .inl rfl) ms⟩
  · exact ⟨_, heq, rewrites_self _ ms⟩

theorem switchRequired_of_not_isObject (required : Bool) {v : Value} (hv : ∀ ms, v ≠ .object ms) :
    switchRequired required v = v := by
  cases v with
  | object ms => exact absurd rfl (hv ms)
  | _ => rw [switchRequired]; simp

/-- What does not declare itself a container has nothing to switch. -/
theorem switchRequired_of_not_declaresContainer (required : Bool) {v : Value}
    (h : declaresContainer v = false) : switchRequired required v = v := by
  cases v with
  | object ms =>
      rw [declaresContainer] at h
      rw [switchRequired]
      split
      · next isObject => simp [isObject, isContainerType] at h
      · next isArray => simp [isArray, isContainerType] at h
      · rfl
  | _ => exact switchRequired_of_not_isObject required (by simp)

/-- The switch for required fields keeps a document well kept. -/
theorem WellKept.switchRequired {doc : Value} (hdoc : doc.IsJson) (h : WellKept doc)
    (required : Bool) : WellKept (Schema.switchRequired required doc) :=
  h.rewrite (rewrites_switchRequired required)
    (fun _ => switchRequired_of_not_isObject required) hdoc

end Schema

end SchemaForge
