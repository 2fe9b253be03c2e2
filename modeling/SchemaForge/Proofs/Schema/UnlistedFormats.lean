import SchemaForge.Proofs.Schema.Switched
import SchemaForge.Schema.Formats

/-!
The formats off a list that the walk over a document comes to. The nodes of a document are listed in the order in
which they stand in it: a node, then what its properties hold, its items and its variants. The walk goes through them
in this order, but past the variants, and it is stopped by properties that it cannot go through. Setting the switch
for required fields does not change what it comes to.
-/

namespace SchemaForge.Schema

/-! ### The nodes of a document -/

/-- A node of a document, and whether it is one of some variants or stands below one. -/
structure Visit where
  inVariant : Bool
  members : Members

def fieldValues (ms : Members) : List Value :=
  match Members.find? (.str "properties") ms with
  | some (.object ps) => ps.map (·.2)
  | _ => []

def itemValues (ms : Members) : List Value := (Members.find? (.str "items") ms).toList

def variantValues (ms : Members) : List Value :=
  match Members.find? (.str "oneOf") ms with
  | some (.array xs) => xs
  | _ => []

theorem mem_fieldValues_iff {ms : Members} {v : Value} : v ∈ fieldValues ms ↔
    ∃ ps k, Members.find? (.str "properties") ms = some (.object ps) ∧ (k, v) ∈ ps := by
  unfold fieldValues
  split
  · next ps hps => simp [hps]
  · next hnone =>
      constructor
      · nofun
      · rintro ⟨ps, k, hps, -⟩
        exact absurd hps (hnone ps)

theorem mem_itemValues_iff {ms : Members} {v : Value} :
    v ∈ itemValues ms ↔ Members.find? (.str "items") ms = some v := by
  simp [itemValues]

theorem mem_variantValues_iff {ms : Members} {v : Value} : v ∈ variantValues ms ↔
    ∃ xs, Members.find? (.str "oneOf") ms = some (.array xs) ∧ v ∈ xs := by
  unfold variantValues
  split
  · next xs hxs => simp [hxs]
  · next hnone =>
      constructor
      · nofun
      · rintro ⟨xs, hxs, -⟩
        exact absurd hxs (hnone xs)

theorem sizeOf_lt_of_find? {word : String} {ms : Members} {v : Value}
    (h : Members.find? (.str word) ms = some v) : sizeOf v < sizeOf (Value.object ms) := by
  have hmem := List.sizeOf_lt_of_mem (Members.mem_of_find? ⟨word, rfl⟩ h)
  simp only [Prod.mk.sizeOf_spec] at hmem
  simp only [Value.object.sizeOf_spec]
  omega

theorem sizeOf_lt_of_mem_fieldValues {ms : Members} {v : Value} (h : v ∈ fieldValues ms) :
    sizeOf v < sizeOf (Value.object ms) := by
  obtain ⟨ps, k, hps, hmem⟩ := mem_fieldValues_iff.mp h
  have houter := sizeOf_lt_of_find? hps
  have hinner := List.sizeOf_lt_of_mem hmem
  simp only [Prod.mk.sizeOf_spec] at hinner
  simp only [Value.object.sizeOf_spec] at houter ⊢
  omega

theorem sizeOf_lt_of_mem_variantValues {ms : Members} {v : Value} (h : v ∈ variantValues ms) :
    sizeOf v < sizeOf (Value.object ms) := by
  obtain ⟨xs, hxs, hmem⟩ := mem_variantValues_iff.mp h
  have houter := sizeOf_lt_of_find? hxs
  have hinner := List.sizeOf_lt_of_mem hmem
  simp only [Value.array.sizeOf_spec] at houter
  omega

/-- The nodes of a document in their order: a node, then those of its properties, its items and its variants. -/
def nodes (inVariant : Bool) : Value → List Visit
  | .object ms =>
      ⟨inVariant, ms⟩ :: ((fieldValues ms).attach.flatMap (fun v => nodes inVariant v.1) ++
        (itemValues ms).attach.flatMap (fun v => nodes inVariant v.1) ++
        (variantValues ms).attach.flatMap (fun v => nodes true v.1))
  | _ => []
termination_by v => sizeOf v
decreasing_by
  · exact sizeOf_lt_of_mem_fieldValues v.2
  · exact sizeOf_lt_of_find? (mem_itemValues_iff.mp v.2)
  · exact sizeOf_lt_of_mem_variantValues v.2

theorem nodes_object (inVariant : Bool) (ms : Members) :
    nodes inVariant (.object ms) =
      ⟨inVariant, ms⟩ :: ((fieldValues ms).flatMap (nodes inVariant) ++ (itemValues ms).flatMap (nodes inVariant) ++
        (variantValues ms).flatMap (nodes true)) := by
  rw [nodes]
  simp

theorem nodes_of_not_isObject (inVariant : Bool) {v : Value} (hv : ∀ ms, v ≠ .object ms) :
    nodes inVariant v = [] := by
  cases v with
  | object ms => exact absurd rfl (hv ms)
  | _ => rw [nodes]; simp

/-- Induction from a node to the nodes right below it. -/
theorem node_induction {P : Value → Prop} (other : ∀ v, (∀ ms, v ≠ .object ms) → P v)
    (node : ∀ ms, (∀ v ∈ fieldValues ms, P v) → (∀ v ∈ itemValues ms, P v) → (∀ v ∈ variantValues ms, P v) →
      P (.object ms)) (v : Value) : P v := by
  refine v.part_induction other fun ms ih => node ms ?_ ?_ ?_
  · intro v hv
    obtain ⟨ps, k, hps, hmem⟩ := mem_fieldValues_iff.mp hv
    exact (ih _ (Members.mem_of_find? ⟨_, rfl⟩ hps)).members ps rfl (k, v) hmem
  · intro v hv
    exact (ih _ (Members.mem_of_find? ⟨_, rfl⟩ (mem_itemValues_iff.mp hv))).self
  · intro v hv
    obtain ⟨xs, hxs, hmem⟩ := mem_variantValues_iff.mp hv
    exact (ih _ (Members.mem_of_find? ⟨_, rfl⟩ hxs)).elements xs rfl v hmem

/-- The nodes that are reached from a document through properties, items and variants. Of a document that is itself
among variants all nodes are. -/
inductive Visited (start : Bool) (doc : Value) : (inVariant : Bool) → Members → Prop where
  | root {ms : Members} (isRoot : doc = .object ms) : Visited start doc start ms
  | field {inVariant : Bool} {ms ps ns : Members} {k : Scalar} (reached : Visited start doc inVariant ms)
      (properties : Members.find? (.str "properties") ms = some (.object ps)) (isField : (k, .object ns) ∈ ps) :
      Visited start doc inVariant ns
  | items {inVariant : Bool} {ms ns : Members} (reached : Visited start doc inVariant ms)
      (items : Members.find? (.str "items") ms = some (.object ns)) : Visited start doc inVariant ns
  | variant {inVariant : Bool} {ms ns : Members} {xs : List Value} (reached : Visited start doc inVariant ms)
      (set : Members.find? (.str "oneOf") ms = some (.array xs)) (isVariant : .object ns ∈ xs) :
      Visited start doc true ns

section Visits

variable {start inVariant below : Bool} {doc : Value} {ms ns : Members} {visit : Visit}

theorem mem_nodes_object_iff : visit ∈ nodes start (.object ms) ↔ visit = ⟨start, ms⟩ ∨
    (∃ v ∈ fieldValues ms, visit ∈ nodes start v) ∨ (∃ v ∈ itemValues ms, visit ∈ nodes start v) ∨
      ∃ v ∈ variantValues ms, visit ∈ nodes true v := by
  simp only [nodes_object, List.mem_cons, List.mem_append, List.mem_flatMap, or_assoc]

theorem root_mem_nodes : ⟨start, ms⟩ ∈ nodes start (.object ms) := mem_nodes_object_iff.mpr (.inl rfl)

theorem exists_object_of_mem_nodes (h : visit ∈ nodes start doc) : ∃ ms, doc = .object ms := by
  by_contra hobject
  rw [nodes_of_not_isObject start fun ms heq => hobject ⟨ms, heq⟩] at h
  cases h

/-- What is reached from a reached node is reached. -/
theorem Visited.trans (reached : Visited start doc inVariant ms) (further : Visited inVariant (.object ms) below ns) :
    Visited start doc below ns := by
  induction further with
  | root isRoot =>
      cases isRoot
      exact reached
  | field _ properties isField ih => exact ih.field properties isField
  | items _ items ih => exact ih.items items
  | variant _ set isVariant ih => exact ih.variant set isVariant

/-- What is listed for a listed node is listed for the document. -/
theorem mem_nodes_trans (further : visit ∈ nodes inVariant (.object ms)) :
    ∀ {start : Bool}, ⟨inVariant, ms⟩ ∈ nodes start doc → visit ∈ nodes start doc := by
  refine node_induction (P := fun doc => ∀ {start}, ⟨inVariant, ms⟩ ∈ nodes start doc → visit ∈ nodes start doc)
    ?_ ?_ doc
  · intro v hv start listed
    obtain ⟨ns, rfl⟩ := exists_object_of_mem_nodes listed
    exact absurd rfl (hv ns)
  · intro ns ihFields ihItems ihVariants start listed
    rcases mem_nodes_object_iff.mp listed with heq | ⟨v, hv, hmem⟩ | ⟨v, hv, hmem⟩ | ⟨v, hv, hmem⟩
    · cases heq
      exact further
    · exact mem_nodes_object_iff.mpr (.inr (.inl ⟨v, hv, ihFields v hv hmem⟩))
    · exact mem_nodes_object_iff.mpr (.inr (.inr (.inl ⟨v, hv, ihItems v hv hmem⟩)))
    · exact mem_nodes_object_iff.mpr (.inr (.inr (.inr ⟨v, hv, ihVariants v hv hmem⟩)))

theorem visited_of_mem_nodes :
    ∀ {start : Bool}, ⟨inVariant, ms⟩ ∈ nodes start doc → Visited start doc inVariant ms := by
  refine node_induction
    (P := fun doc => ∀ {start}, ⟨inVariant, ms⟩ ∈ nodes start doc → Visited start doc inVariant ms) ?_ ?_ doc
  · intro v hv start listed
    obtain ⟨ns, rfl⟩ := exists_object_of_mem_nodes listed
    exact absurd rfl (hv ns)
  · intro ns ihFields ihItems ihVariants start listed
    rcases mem_nodes_object_iff.mp listed with heq | ⟨v, hv, hmem⟩ | ⟨v, hv, hmem⟩ | ⟨v, hv, hmem⟩
    · cases heq
      exact .root rfl
    · obtain ⟨os, rfl⟩ := exists_object_of_mem_nodes hmem
      obtain ⟨ps, k, hps, isField⟩ := mem_fieldValues_iff.mp hv
      exact ((Visited.root rfl).field hps isField).trans (ihFields _ hv hmem)
    · obtain ⟨os, rfl⟩ := exists_object_of_mem_nodes hmem
      exact ((Visited.root rfl).items (mem_itemValues_iff.mp hv)).trans (ihItems _ hv hmem)
    · obtain ⟨os, rfl⟩ := exists_object_of_mem_nodes hmem
      obtain ⟨xs, hxs, isVariant⟩ := mem_variantValues_iff.mp hv
      exact ((Visited.root rfl).variant hxs isVariant).trans (ihVariants _ hv hmem)

/-- The listed nodes are those that are reached. -/
theorem mem_nodes_iff : ⟨inVariant, ms⟩ ∈ nodes start doc ↔ Visited start doc inVariant ms := by
  refine ⟨visited_of_mem_nodes, fun reached => ?_⟩
  induction reached with
  | root isRoot =>
      cases isRoot
      exact root_mem_nodes
  | field _ properties isField ih =>
      have hv := mem_fieldValues_iff.mpr ⟨_, _, properties, isField⟩
      exact mem_nodes_trans (mem_nodes_object_iff.mpr (.inr (.inl ⟨_, hv, root_mem_nodes⟩))) ih
  | items _ items ih =>
      have hv := mem_itemValues_iff.mpr items
      exact mem_nodes_trans (mem_nodes_object_iff.mpr (.inr (.inr (.inl ⟨_, hv, root_mem_nodes⟩)))) ih
  | variant _ set isVariant ih =>
      have hv := mem_variantValues_iff.mpr ⟨_, set, isVariant⟩
      exact mem_nodes_trans (mem_nodes_object_iff.mpr (.inr (.inr (.inr ⟨_, hv, root_mem_nodes⟩)))) ih

end Visits

/-! ### The walk -/

/-- The format that a node names, if it is a text off a list. -/
def unlistedFormat (allowed : List String) (ms : Members) : Option String :=
  match Members.find? (.str "format") ms with
  | some (.str f) => if f ∈ allowed then none else some f
  | _ => none

def unlistedFormats (allowed : List String) (visits : List Visit) : List String :=
  visits.filterMap fun visit => unlistedFormat allowed visit.members

/-- The nodes outside all variants. -/
def plain (visits : List Visit) : List Visit := visits.filter fun visit => !visit.inVariant

/-- The properties of a node can be gone through: they are an object, or what stands there counts as nothing. -/
def Browsable (ms : Members) : Prop :=
  ∀ v, Members.find? (.str "properties") ms = some v → v.isObject = true ∨ v.truthy = false

/-- The walk over a document gets through: there is no node outside variants whose properties stop it. -/
def Walkable (doc : Value) : Prop := ∀ visit ∈ plain (nodes false doc), Browsable visit.members

/-- What a walk that gets through comes to. -/
def toldFormats (allowed : List String) (doc : Value) : List String :=
  unlistedFormats allowed (plain (nodes false doc))

section Walk

variable {allowed : List String} {ms : Members} {v : Value}

theorem Visited.eq_true {inVariant : Bool} (reached : Visited true v inVariant ms) : inVariant = true := by
  induction reached with
  | root _ => rfl
  | field _ _ _ ih => exact ih
  | items _ _ ih => exact ih
  | variant _ _ _ _ => rfl

/-- Below variants there is nothing outside variants. -/
theorem plain_nodes_true (v : Value) : plain (nodes true v) = [] := by
  rw [plain, List.filter_eq_nil_iff]
  intro visit hvisit
  rw [(visited_of_mem_nodes hvisit).eq_true]
  simp

theorem plain_nodes_object (ms : Members) : plain (nodes false (.object ms)) =
    ⟨false, ms⟩ :: ((fieldValues ms).flatMap (fun v => plain (nodes false v)) ++
      (itemValues ms).flatMap (fun v => plain (nodes false v))) := by
  have hvariants : (variantValues ms).flatMap (fun v => plain (nodes true v)) = [] := by
    simp only [plain_nodes_true, List.flatMap_eq_nil_iff, implies_true]
  unfold plain at hvariants ⊢
  simp [nodes_object, List.filter_flatMap, hvariants]

theorem plain_nodes_of_not_isObject (hv : ∀ ms, v ≠ .object ms) : plain (nodes false v) = [] := by
  rw [nodes_of_not_isObject false hv]
  rfl

theorem walkable_object_iff : Walkable (.object ms) ↔
    Browsable ms ∧ (∀ v ∈ fieldValues ms, Walkable v) ∧ ∀ v ∈ itemValues ms, Walkable v := by
  simp only [Walkable, plain_nodes_object, List.forall_mem_cons, List.forall_mem_append, List.forall_mem_flatMap]

theorem toldFormats_object : toldFormats allowed (.object ms) =
    (unlistedFormat allowed ms).toList ++ (fieldValues ms).flatMap (toldFormats allowed) ++
      (itemValues ms).flatMap (toldFormats allowed) := by
  unfold toldFormats unlistedFormats
  rw [plain_nodes_object, List.filterMap_cons, List.filterMap_append, List.filterMap_flatMap, List.filterMap_flatMap]
  cases unlistedFormat allowed ms <;> simp

theorem ownFormat_eq (allowed : List String) (ms : Members) :
    ownFormat allowed ms = (unlistedFormat allowed ms).toList := by
  unfold ownFormat unlistedFormat
  cases Members.find? (.str "format") ms with
  | none => rfl
  | some v =>
      cases v with
      | scalar s =>
          cases s with
          | str f => by_cases hmem : f ∈ allowed <;> simp [hmem]
          | _ => rfl
      | _ => rfl

/-- The walk over a value comes to its formats exactly if it gets through. -/
def Told (allowed : List String) (v : Value) : Prop :=
  ∀ found, unknownFormats allowed v = .ok found ↔ Walkable v ∧ toldFormats allowed v = found

theorem eachFormats_eq_ok_iff {ps : Members} (told : ∀ v ∈ ps.map (·.2), Told allowed v) :
    ∀ found, eachFormats allowed ps = .ok found ↔
      (∀ v ∈ ps.map (·.2), Walkable v) ∧ (ps.map (·.2)).flatMap (toldFormats allowed) = found := by
  induction ps with
  | nil => simp [eachFormats]
  | cons m ps ih =>
      obtain ⟨k, v⟩ := m
      obtain ⟨hv, hps⟩ := List.forall_mem_cons.mp told
      intro found
      simp only [eachFormats, bind_eq_ok_iff, hv _, ih hps, pure_eq_ok, Except.ok.injEq, List.map_cons,
        List.forall_mem_cons, List.flatMap_cons]
      constructor
      · rintro ⟨_, ⟨walkable, rfl⟩, _, ⟨others, rfl⟩, rfl⟩
        exact ⟨⟨walkable, others⟩, rfl⟩
      · rintro ⟨⟨walkable, others⟩, rfl⟩
        exact ⟨_, ⟨walkable, rfl⟩, _, ⟨others, rfl⟩, rfl⟩

theorem propertiesFormats_eq (allowed : List String) (ms : Members) : propertiesFormats allowed ms =
    match Members.find? (.str "properties") ms with
    | none => .ok []
    | some (.object ps) => eachFormats allowed ps
    | some v => if v.truthy then .error .wrongShape else .ok [] := by
  induction ms with
  | nil => simp [propertiesFormats]
  | cons m ms ih =>
      obtain ⟨k, v⟩ := m
      rw [propertiesFormats.eq_def]
      by_cases hk : k = .str "properties"
      · cases v <;> simp [hk, Members.find?]
      · simp [hk, Members.find?, Scalar.same_str_iff, ih]

theorem itemsFormats_eq (allowed : List String) (ms : Members) : itemsFormats allowed ms =
    match Members.find? (.str "items") ms with
    | none => .ok []
    | some v => unknownFormats allowed v := by
  induction ms with
  | nil => simp [itemsFormats]
  | cons m ms ih =>
      obtain ⟨k, v⟩ := m
      rw [itemsFormats.eq_def]
      by_cases hk : k = .str "items"
      · simp [hk, Members.find?]
      · simp [hk, Members.find?, Scalar.same_str_iff, ih]

theorem fieldValues_of_object {ps : Members} (h : Members.find? (.str "properties") ms = some (.object ps)) :
    fieldValues ms = ps.map (·.2) := by
  simp only [fieldValues, h]

theorem fieldValues_eq_nil (h : ∀ ps, Members.find? (.str "properties") ms ≠ some (.object ps)) :
    fieldValues ms = [] := by
  unfold fieldValues
  split
  · next ps hps => exact absurd hps (h ps)
  · rfl

theorem propertiesFormats_eq_ok_iff (told : ∀ v ∈ fieldValues ms, Told allowed v) (found : List String) :
    propertiesFormats allowed ms = .ok found ↔
      Browsable ms ∧ (∀ v ∈ fieldValues ms, Walkable v) ∧ (fieldValues ms).flatMap (toldFormats allowed) = found := by
  rw [propertiesFormats_eq]
  unfold Browsable
  split
  · next hnone => simp [fieldValues_eq_nil, hnone]
  · next ps hps =>
      rw [fieldValues_of_object hps] at told ⊢
      rw [eachFormats_eq_ok_iff told]
      simp [hps, Value.isObject]
  · next v hobject hv =>
      have hfields : fieldValues ms = [] := fieldValues_eq_nil fun ps hps =>
        hobject ps (Option.some.inj (hv.symm.trans hps))
      have hisObject : v.isObject = false := by
        cases v with
        | object ps => exact absurd rfl (hobject ps)
        | _ => rfl
      by_cases htruthy : v.truthy = true <;> simp [hv, hfields, hisObject, htruthy]

theorem itemsFormats_eq_ok_iff (told : ∀ v ∈ itemValues ms, Told allowed v) (found : List String) :
    itemsFormats allowed ms = .ok found ↔
      (∀ v ∈ itemValues ms, Walkable v) ∧ (itemValues ms).flatMap (toldFormats allowed) = found := by
  rw [itemsFormats_eq]
  unfold itemValues at told ⊢
  split
  · next hnone => simp [hnone]
  · next v hv =>
      rw [hv] at told ⊢
      simpa using told v (by simp) found

/-- A walk that gets through comes to the formats off the list of all nodes outside variants, in their order. -/
theorem told (allowed : List String) (v : Value) : Told allowed v := by
  refine node_induction (P := Told allowed) ?_ ?_ v
  · intro v hv found
    have hwalk : unknownFormats allowed v = .ok [] := by
      cases v with
      | object ms => exact absurd rfl (hv ms)
      | _ => rw [unknownFormats]; simp
    rw [hwalk, Except.ok.injEq, Walkable, toldFormats, plain_nodes_of_not_isObject hv]
    simp [unlistedFormats]
  · intro ms ihFields ihItems _ found
    rw [unknownFormats]
    simp only [bind_eq_ok_iff, propertiesFormats_eq_ok_iff ihFields, itemsFormats_eq_ok_iff ihItems, pure_eq_ok,
      Except.ok.injEq, walkable_object_iff, toldFormats_object, ownFormat_eq]
    constructor
    · rintro ⟨_, ⟨browsable, fields, rfl⟩, _, ⟨items, rfl⟩, rfl⟩
      exact ⟨⟨browsable, fields, items⟩, rfl⟩
    · rintro ⟨⟨browsable, fields, items⟩, rfl⟩
      exact ⟨_, ⟨browsable, fields, rfl⟩, _, ⟨items, rfl⟩, rfl⟩

/-- Nothing stops the walk over a value but the shape of some properties. -/
def StopsAtShapes (allowed : List String) (v : Value) : Prop :=
  ∀ fault, unknownFormats allowed v = .error fault → fault = .wrongShape

theorem eq_wrongShape_of_eachFormats {ps : Members} (stops : ∀ v ∈ ps.map (·.2), StopsAtShapes allowed v)
    {fault : Fault} (h : eachFormats allowed ps = .error fault) : fault = .wrongShape := by
  induction ps with
  | nil => cases h
  | cons m ps ih =>
      obtain ⟨k, v⟩ := m
      obtain ⟨hv, hps⟩ := List.forall_mem_cons.mp stops
      simp only [eachFormats, bind_eq_error_iff, pure_eq_ok, reduceCtorEq, and_false, exists_false, or_false] at h
      rcases h with here | ⟨_, -, later⟩
      · exact hv fault here
      · exact ih hps later

theorem eq_wrongShape_of_propertiesFormats (stops : ∀ v ∈ fieldValues ms, StopsAtShapes allowed v) {fault : Fault}
    (h : propertiesFormats allowed ms = .error fault) : fault = .wrongShape := by
  rw [propertiesFormats_eq] at h
  split at h
  · cases h
  · next ps hps =>
      rw [fieldValues_of_object hps] at stops
      exact eq_wrongShape_of_eachFormats stops h
  · split at h
    · exact (Except.error.inj h).symm
    · cases h

theorem stopsAtShapes (allowed : List String) (v : Value) : StopsAtShapes allowed v := by
  refine node_induction (P := StopsAtShapes allowed) ?_ ?_ v
  · intro v hv fault hfault
    rw [unknownFormats] at hfault
    · cases hfault
    · exact hv
  · intro ms ihFields ihItems _ fault hfault
    rw [unknownFormats] at hfault
    simp only [bind_eq_error_iff, pure_eq_ok, reduceCtorEq, and_false, exists_false, or_false] at hfault
    rcases hfault with hproperties | ⟨_, -, hitems⟩
    · exact eq_wrongShape_of_propertiesFormats ihFields hproperties
    · rw [itemsFormats_eq] at hitems
      split at hitems
      · cases hitems
      · next v hv => exact ihItems v (mem_itemValues_iff.mpr hv) fault hitems

/-- The walk is stopped exactly if it does not get through. -/
theorem unknownFormats_eq_error_iff {fault : Fault} :
    unknownFormats allowed v = .error fault ↔ fault = .wrongShape ∧ ¬ Walkable v := by
  cases hwalk : unknownFormats allowed v with
  | ok found => simp [((told allowed v found).mp hwalk).1]
  | error stopped =>
      obtain rfl := stopsAtShapes allowed v stopped hwalk
      have hstops : ¬ Walkable v := fun walkable => by
        rw [(told allowed v _).mpr ⟨walkable, rfl⟩] at hwalk
        cases hwalk
      simp [hstops, eq_comm]

/-- The walk gets through if the properties of every node can be gone through that is reached without variants. -/
theorem walkable_iff : Walkable v ↔ ∀ ms, Visited false v false ms → Browsable ms := by
  simp only [Walkable, plain, List.mem_filter, Bool.not_eq_true', and_imp]
  constructor
  · exact fun walkable ms reached => walkable ⟨false, ms⟩ (mem_nodes_iff.mpr reached) rfl
  · rintro browsable ⟨inVariant, ms⟩ listed rfl
    exact browsable ms (mem_nodes_iff.mp listed)

/-- Nothing off the list is passed over exactly if no variant, and nothing below one, names anything off the list. -/
theorem unlistedFormats_plain_eq_iff :
    unlistedFormats allowed (plain (nodes false v)) = unlistedFormats allowed (nodes false v) ↔
      ∀ ms, Visited false v true ms → unlistedFormat allowed ms = none := by
  rw [unlistedFormats, unlistedFormats, plain, filterMap_filter_eq_iff]
  constructor
  · exact fun hnone ms reached => hnone ⟨true, ms⟩ (mem_nodes_iff.mpr reached) rfl
  · rintro hnone ⟨inVariant, ms⟩ listed hvariant
    obtain rfl : inVariant = true := by simpa using hvariant
    exact hnone ms (mem_nodes_iff.mp listed)

end Walk

/-! ### After the switch for required fields -/

section Switch

variable {allowed : List String} {ms ns : Members}

theorem unknownFormats_congr (format : Members.find? (.str "format") ns = Members.find? (.str "format") ms)
    (properties : propertiesFormats allowed ns = propertiesFormats allowed ms)
    (items : itemsFormats allowed ns = itemsFormats allowed ms) :
    unknownFormats allowed (.object ns) = unknownFormats allowed (.object ms) := by
  rw [unknownFormats, unknownFormats, properties, items, ownFormat, ownFormat, format]

theorem eachFormats_map_values {f : Value → Value} {ps : Members}
    (same : ∀ v ∈ ps.map (·.2), unknownFormats allowed (f v) = unknownFormats allowed v) :
    eachFormats allowed (ps.map fun m => (m.1, f m.2)) = eachFormats allowed ps := by
  induction ps with
  | nil => rfl
  | cons m ps ih =>
      obtain ⟨k, v⟩ := m
      obtain ⟨hv, hps⟩ := List.forall_mem_cons.mp same
      rw [List.map_cons, eachFormats, eachFormats, hv, ih hps]

/-- The switch for required fields leaves the formats what they are, and where they are. -/
theorem unknownFormats_switchRequired (allowed : List String) (required : Bool) (v : Value) :
    unknownFormats allowed (switchRequired required v) = unknownFormats allowed v := by
  refine node_induction
    (P := fun v => unknownFormats allowed (switchRequired required v) = unknownFormats allowed v) ?_ ?_ v
  · intro v hv
    rw [switchRequired_of_not_isObject required hv]
  · intro ms ihFields ihItems _
    rcases switchRequired_cases required ms with ⟨ps, -, hps, heq⟩ | ⟨-, heq⟩ | heq
    · rw [heq]
      rw [fieldValues_of_object hps] at ihFields
      refine unknownFormats_congr ?_ ?_ ?_
      · rw [find?_switchNames_of_ne _ _ _ (by simp), Members.find?_mapAt, if_neg (by simp)]
      · rw [propertiesFormats_eq, propertiesFormats_eq, find?_switchNames_of_ne _ _ _ (by simp), Members.find?_mapAt,
          if_pos rfl, hps, Option.map_some, switchedProperties_eq_map]
        exact eachFormats_map_values ihFields
      · rw [itemsFormats_eq, itemsFormats_eq, find?_switchNames_of_ne _ _ _ (by simp), Members.find?_mapAt,
          if_neg (by simp)]
    · rw [heq]
      refine unknownFormats_congr ?_ ?_ ?_
      · rw [Members.find?_mapAt, if_neg (by simp)]
      · rw [propertiesFormats_eq, propertiesFormats_eq, Members.find?_mapAt, if_neg (by simp)]
      · rw [itemsFormats_eq, itemsFormats_eq, Members.find?_mapAt, if_pos rfl]
        cases hitems : Members.find? (.str "items") ms with
        | none => rfl
        | some v => exact ihItems v (mem_itemValues_iff.mpr hitems)
    · rw [heq]

end Switch

end SchemaForge.Schema
