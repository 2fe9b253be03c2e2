import SchemaForge.Proofs.Schema.Normalization

/-!
Documents in normal form. Whether a node is in normal form is a matter of the one keyword under which its
type has nodes: properties of which the containers are in normal form, items that are a node in normal
form, variants in normal form. So a document that was brought into normal form is in it, the switch for
required fields keeps it there, and what may stand in the place of a part may stand there in the whole.
-/

namespace SchemaForge

namespace Members

theorem mapAt_eq_self_iff {word : String} {f : Value → Value} {ms : Members} :
    mapAt word f ms = ms ↔ ∀ v, (.str word, v) ∈ ms → f v = v := by
  rw [mapAt, map_eq_self_iff]
  constructor
  · intro h v hv
    simpa using h _ hv
  · intro h m hm
    split
    · next hk => exact Prod.ext rfl (h m.2 (hk ▸ hm))
    · rfl

theorem has_mapAt (word name : String) (f : Value → Value) (ms : Members) :
    has (.str name) (mapAt word f ms) = has (.str name) ms := by
  rw [Bool.eq_iff_iff, has_iff ⟨_, rfl⟩, has_iff ⟨_, rfl⟩, keys_mapAt]

theorem mem_mapAt {word : String} {f : Value → Value} {ms : Members} {v : Value}
    (h : (.str word, v) ∈ mapAt word f ms) : ∃ u, (.str word, u) ∈ ms ∧ v = f u := by
  obtain ⟨⟨k, u⟩, hm, heq⟩ := List.mem_map.mp h
  by_cases hk : k = .str word
  · subst hk
    simp only [if_true, Prod.mk.injEq, true_and] at heq
    exact ⟨u, hm, heq.symm⟩
  · rw [if_neg hk] at heq
    exact absurd (Prod.mk.inj heq).1 hk

/-- What stands at a text after writing: what stood there before, or the new value at the place of the
old one. -/
theorem mem_insert_at {k : Scalar} {word : String} {v w : Value} {ms : Members}
    (h : (.str word, w) ∈ insert k v ms) : (.str word, w) ∈ ms ∨ k = .str word ∧ w = v := by
  induction ms with
  | nil =>
      obtain ⟨hk, hv⟩ := Prod.mk.inj (List.mem_singleton.mp h)
      exact .inr ⟨hk.symm, hv⟩
  | cons m ms ih =>
      obtain ⟨l, u⟩ := m
      rw [insert] at h
      split at h
      · next hsame =>
          rcases List.mem_cons.mp h with heq | h
          · obtain ⟨rfl, rfl⟩ := Prod.mk.inj heq
            rw [Scalar.same_comm, Scalar.same_str_iff] at hsame
            exact .inr ⟨hsame, rfl⟩
          · exact .inl (List.mem_cons_of_mem _ h)
      · rcases List.mem_cons.mp h with heq | h
        · exact .inl (heq ▸ List.mem_cons_self)
        · exact (ih h).imp (List.mem_cons_of_mem _) id

end Members

namespace Schema

open Members (mapAt mapPicked)

/-! ### Nodes by their type -/

/-- What a node says of itself, and what its normal form goes by. -/
inductive NodeKind (ms : Members) : Prop where
  | object (isObject : Members.find? (.str "type") ms = some (.str "object"))
  | array (isArray : Members.find? (.str "type") ms = some (.str "array"))
  | typed {t : Value} (type : Members.find? (.str "type") ms = some t) (notObject : t ≠ .str "object")
      (notArray : t ≠ .str "array")
  | implied {ps : Members} (noType : Members.find? (.str "type") ms = none)
      (properties : Members.find? (.str "properties") ms = some (.object ps))
  | variants {xs : List Value} (noType : Members.find? (.str "type") ms = none)
      (noProperties : ∀ ps, Members.find? (.str "properties") ms ≠ some (.object ps))
      (set : Members.find? (.str "oneOf") ms = some (.array xs))
  | bare (noType : Members.find? (.str "type") ms = none)
      (noProperties : ∀ ps, Members.find? (.str "properties") ms ≠ some (.object ps))
      (noSet : ∀ xs, Members.find? (.str "oneOf") ms ≠ some (.array xs))

theorem nodeKind (ms : Members) : NodeKind ms := by
  cases htype : Members.find? (.str "type") ms with
  | some t =>
      by_cases hobject : t = .str "object"
      · exact .object (hobject ▸ htype)
      · by_cases harray : t = .str "array"
        · exact .array (harray ▸ htype)
        · exact .typed htype hobject harray
  | none =>
      by_cases hps : ∃ ps, Members.find? (.str "properties") ms = some (.object ps)
      · obtain ⟨ps, hps⟩ := hps
        exact .implied htype hps
      · have hps : ∀ ps, Members.find? (.str "properties") ms ≠ some (.object ps) :=
          fun ps h => hps ⟨ps, h⟩
        by_cases hset : ∃ xs, Members.find? (.str "oneOf") ms = some (.array xs)
        · obtain ⟨xs, hset⟩ := hset
          exact .variants htype hps hset
        · exact .bare htype hps fun xs h => hset ⟨xs, h⟩

theorem isContainerType_eq_false {t : Value} (hobject : t ≠ .str "object")
    (harray : t ≠ .str "array") : isContainerType t = false := by
  unfold isContainerType
  split
  · simp_all
  · rfl

section Equations

variable {ms : Members}

theorem normalize_of_object (h : Members.find? (.str "type") ms = some (.str "object")) :
    normalize (.object ms) =
      .object (ensure "properties" (.object []) (mapAt "properties" normalizedProperties ms)) := by
  rw [normalize]
  simp only [h, normalizeProperties_eq_mapAt]

theorem normalize_of_array (h : Members.find? (.str "type") ms = some (.str "array")) :
    normalize (.object ms) =
      .object (ensure "items" stringNode (mapAt "items" normalizedItems ms)) := by
  rw [normalize]
  simp only [h, normalizeItems_eq_mapAt]

theorem normalize_of_typed {t : Value} (h : Members.find? (.str "type") ms = some t)
    (hobject : t ≠ .str "object") (harray : t ≠ .str "array") :
    normalize (.object ms) = .object ms := by
  rw [normalize]
  simp only [h]

section Untyped

variable (htype : Members.find? (.str "type") ms = none)

include htype

theorem normalize_of_implied {ps : Members}
    (h : Members.find? (.str "properties") ms = some (.object ps)) :
    normalize (.object ms) =
      .object (ensure "type" (.str "object") (mapAt "properties" normalizedProperties ms)) := by
  rw [normalize]
  simp only [htype, h, normalizeProperties_eq_mapAt]

theorem normalize_of_variants {xs : List Value}
    (hps : ∀ ps, Members.find? (.str "properties") ms ≠ some (.object ps))
    (h : Members.find? (.str "oneOf") ms = some (.array xs)) :
    normalize (.object ms) = .object (mapAt "oneOf" normalizedVariants ms) := by
  rw [normalize]
  simp only [htype, h, normalizeVariants_eq_mapAt]

theorem normalize_of_bare
    (hps : ∀ ps, Members.find? (.str "properties") ms ≠ some (.object ps))
    (h : ∀ xs, Members.find? (.str "oneOf") ms ≠ some (.array xs)) :
    normalize (.object ms) = .object (ensure "type" (.str "string") ms) := by
  rw [normalize]
  simp only [htype]

end Untyped

end Equations

/-! ### Normal form at one node -/

/-- A value that is its own normal form. -/
def IsNormal (v : Value) : Prop := normalize v = v

/-- A value that is left as it is among properties, where containers alone are brought into normal
form. -/
def IsNormalProperty (p : Value) : Prop := isContainer p = true → IsNormal p

/-- An object whose members are left as they are among properties. -/
def IsNormalFields (v : Value) : Prop := ∃ ps, v = .object ps ∧ ∀ m ∈ ps, IsNormalProperty m.2

/-- An object that is its own normal form. -/
def IsNormalNode (v : Value) : Prop := (∃ ms, v = .object ms) ∧ IsNormal v

/-- A list of values that are their own normal forms, or a value that is no list. -/
def IsNormalSet (v : Value) : Prop := ∀ xs, v = .array xs → ∀ x ∈ xs, IsNormal x

theorem normalizedProperties_eq_self_iff {v : Value} :
    normalizedProperties v = v ↔ IsNormalFields v := by
  by_cases hv : ∃ ps, v = .object ps
  · obtain ⟨ps, rfl⟩ := hv
    have hself : mapPicked isContainer normalize ps = ps ↔ ∀ m ∈ ps, IsNormalProperty m.2 := by
      rw [mapPicked, map_eq_self_iff]
      refine forall₂_congr fun m _ => ?_
      by_cases hm : isContainer m.2 = true
      · simp [IsNormalProperty, IsNormal, hm, Prod.ext_iff]
      · simp [IsNormalProperty, hm]
    rw [normalizedProperties_object, Value.object.injEq, hself]
    constructor
    · exact fun h => ⟨ps, rfl, h⟩
    · rintro ⟨_, heq, h⟩
      exact Value.object.inj heq ▸ h
  · rw [normalizedProperties_of_not_isObject fun ps h => hv ⟨ps, h⟩]
    constructor
    · exact fun h => absurd ⟨[], h.symm⟩ hv
    · rintro ⟨ps, h, -⟩
      exact absurd ⟨ps, h⟩ hv

theorem isNormalNode_stringNode : IsNormalNode stringNode :=
  ⟨⟨_, rfl⟩, normalize_of_typed (t := .str "string") rfl (by simp) (by simp)⟩

theorem normalizedItems_eq_self_iff {v : Value} : normalizedItems v = v ↔ IsNormalNode v := by
  rcases v with s | xs | _ | ⟨m, ms⟩
  · simp [normalizedItems, IsNormalNode, stringNode, SchemaType.shape]
  · simp [normalizedItems, IsNormalNode, stringNode, SchemaType.shape]
  · have hbare : normalize (.object []) = stringNode := rfl
    simp [normalizedItems, IsNormalNode, IsNormal, hbare, stringNode, SchemaType.shape]
  · exact ⟨fun h => ⟨⟨_, rfl⟩, h⟩, fun h => h.2⟩

theorem normalizedVariants_eq_self_iff {v : Value} :
    normalizedVariants v = v ↔ IsNormalSet v := by
  cases v with
  | array xs =>
      rw [normalizedVariants, normalizeAll_eq_map, Value.array.injEq, map_eq_self_iff]
      exact ⟨fun h _ heq => Value.array.inj heq ▸ h, fun h => h xs rfl⟩
  | _ => simp [normalizedVariants, IsNormalSet]

theorem ensure_mapAt_eq_self_iff {name word : String} {f : Value → Value} {v : Value}
    {ms : Members} :
    ensure name v (mapAt word f ms) = ms ↔
      Members.has (.str name) ms = true ∧ mapAt word f ms = ms := by
  rw [ensure, Members.has_mapAt]
  by_cases h : Members.has (.str name) ms = true
  · simp [h]
  · rw [if_neg h]
    -- What is added makes the list longer.
    refine ⟨fun heq => ?_, fun heq => absurd heq.1 h⟩
    have hlength := congrArg List.length heq
    simp [mapAt] at hlength

/-- The conditions on a node in normal form. -/
inductive NormalNode (ms : Members) : Prop where
  | object (isObject : Members.find? (.str "type") ms = some (.str "object"))
      (present : Members.has (.str "properties") ms = true)
      (properties : ∀ v, (.str "properties", v) ∈ ms → IsNormalFields v)
  | array (isArray : Members.find? (.str "type") ms = some (.str "array"))
      (present : Members.has (.str "items") ms = true)
      (items : ∀ v, (.str "items", v) ∈ ms → IsNormalNode v)
  | typed {t : Value} (type : Members.find? (.str "type") ms = some t) (notObject : t ≠ .str "object")
      (notArray : t ≠ .str "array")
  | variants {xs : List Value} (noType : Members.find? (.str "type") ms = none)
      (noProperties : ∀ ps, Members.find? (.str "properties") ms ≠ some (.object ps))
      (set : Members.find? (.str "oneOf") ms = some (.array xs))
      (variants : ∀ v, (.str "oneOf", v) ∈ ms → IsNormalSet v)

theorem isNormal_object_iff {ms : Members} : IsNormal (.object ms) ↔ NormalNode ms := by
  constructor
  · intro h
    rw [IsNormal] at h
    rcases nodeKind ms with htype | htype | ⟨htype, hobject, harray⟩ | ⟨htype, hps⟩ |
      ⟨htype, hps, hset⟩ | ⟨htype, hps, hset⟩
    · rw [normalize_of_object htype, Value.object.injEq, ensure_mapAt_eq_self_iff,
        Members.mapAt_eq_self_iff] at h
      exact .object htype h.1 fun v hv => normalizedProperties_eq_self_iff.mp (h.2 v hv)
    · rw [normalize_of_array htype, Value.object.injEq, ensure_mapAt_eq_self_iff,
        Members.mapAt_eq_self_iff] at h
      exact .array htype h.1 fun v hv => normalizedItems_eq_self_iff.mp (h.2 v hv)
    · exact .typed htype hobject harray
    · rw [normalize_of_implied htype hps, Value.object.injEq, ensure_mapAt_eq_self_iff] at h
      simp [Members.has, htype] at h
    · rw [normalize_of_variants htype hps hset, Value.object.injEq,
        Members.mapAt_eq_self_iff] at h
      exact .variants htype hps hset fun v hv => normalizedVariants_eq_self_iff.mp (h v hv)
    · rw [normalize_of_bare htype hps hset, Value.object.injEq, ensure, Members.has, htype] at h
      simp at h
  · intro h
    rw [IsNormal]
    cases h with
    | object htype present properties =>
        rw [normalize_of_object htype, Value.object.injEq, ensure_mapAt_eq_self_iff,
          Members.mapAt_eq_self_iff]
        exact ⟨present, fun v hv => normalizedProperties_eq_self_iff.mpr (properties v hv)⟩
    | array htype present items =>
        rw [normalize_of_array htype, Value.object.injEq, ensure_mapAt_eq_self_iff,
          Members.mapAt_eq_self_iff]
        exact ⟨present, fun v hv => normalizedItems_eq_self_iff.mpr (items v hv)⟩
    | typed htype hobject harray => exact normalize_of_typed htype hobject harray
    | variants htype hps hset variants =>
        rw [normalize_of_variants htype hps hset, Value.object.injEq, Members.mapAt_eq_self_iff]
        exact fun v hv => normalizedVariants_eq_self_iff.mpr (variants v hv)

/-! ### What a node in normal form holds -/

theorem exists_properties_of_isNormal {ms : Members} (h : IsNormal (.object ms))
    (isObject : Members.find? (.str "type") ms = some (.str "object")) :
    ∃ ps, Members.find? (.str "properties") ms = some (.object ps) ∧
      ∀ m ∈ ps, IsNormalProperty m.2 := by
  cases isNormal_object_iff.mp h with
  | object _ present properties =>
      obtain ⟨v, hv⟩ := Option.isSome_iff_exists.mp present
      obtain ⟨ps, rfl, hps⟩ := properties v (Members.mem_of_find? ⟨_, rfl⟩ hv)
      exact ⟨ps, hv, hps⟩
  | array isArray _ _ => simp [isObject] at isArray
  | typed type notObject _ => exact absurd (Option.some.inj (isObject.symm.trans type)).symm notObject
  | variants noType _ _ _ => simp [isObject] at noType

theorem isNormalNode_items {ms : Members} {v : Value} (h : IsNormal (.object ms))
    (isArray : Members.find? (.str "type") ms = some (.str "array"))
    (hitems : Members.find? (.str "items") ms = some v) : IsNormalNode v := by
  cases isNormal_object_iff.mp h with
  | object isObject _ _ => simp [isArray] at isObject
  | array _ _ items => exact items v (Members.mem_of_find? ⟨_, rfl⟩ hitems)
  | typed type _ notArray => exact absurd (Option.some.inj (isArray.symm.trans type)).symm notArray
  | variants noType _ _ _ => simp [isArray] at noType

theorem isNormal_variant {ms : Members} {xs : List Value} {x : Value} (h : IsNormal (.object ms))
    (noType : Members.find? (.str "type") ms = none)
    (set : Members.find? (.str "oneOf") ms = some (.array xs)) (hx : x ∈ xs) : IsNormal x := by
  cases isNormal_object_iff.mp h with
  | object isObject _ _ => simp [noType] at isObject
  | array isArray _ _ => simp [noType] at isArray
  | typed type _ _ => simp [noType] at type
  | variants _ _ _ variants =>
      exact variants _ (Members.mem_of_find? ⟨_, rfl⟩ set) xs rfl x hx

/-! ### Bringing into normal form -/

theorem has_ensure (name : String) (v : Value) (ms : Members) :
    Members.has (.str name) (ensure name v ms) = true := by
  rw [Members.has, find?_ensure, if_pos rfl]
  cases Members.find? (.str name) ms <;> rfl

theorem mem_ensure {name : String} {v : Value} {ms : Members} {m : Scalar × Value}
    (h : m ∈ ensure name v ms) : m ∈ ms ∨ m = (.str name, v) := by
  rw [ensure] at h
  split at h
  · exact .inl h
  · simpa using h

theorem isNormalFields_normalizedProperties {v : Value}
    (h : ∀ ps, v = .object ps → ∀ m ∈ ps, IsNormal (normalize m.2)) :
    IsNormalFields (normalizedProperties v) := by
  by_cases hv : ∃ ps, v = .object ps
  · obtain ⟨ps, rfl⟩ := hv
    rw [normalizedProperties_object]
    refine ⟨_, rfl, fun n hn => ?_⟩
    obtain ⟨m, hm, rfl⟩ := List.mem_map.mp hn
    by_cases hpicked : isContainer m.2 = true
    · rw [if_pos hpicked]
      exact fun _ => h ps rfl m hm
    · rw [if_neg hpicked]
      exact fun hcontainer => absurd hcontainer hpicked
  · rw [normalizedProperties_of_not_isObject fun ps heq => hv ⟨ps, heq⟩]
    exact ⟨[], rfl, by simp⟩

theorem isNormalNode_normalizedItems {v : Value} (h : IsNormal (normalize v)) :
    IsNormalNode (normalizedItems v) := by
  rcases v with s | xs | _ | ⟨m, ms⟩
  · exact isNormalNode_stringNode
  · exact isNormalNode_stringNode
  · exact isNormalNode_stringNode
  · obtain ⟨ns, heq, -⟩ := normalize_object (m :: ms)
    exact ⟨⟨ns, heq⟩, h⟩

theorem isNormalSet_normalizedVariants {v : Value}
    (h : ∀ xs, v = .array xs → ∀ x ∈ xs, IsNormal (normalize x)) :
    IsNormalSet (normalizedVariants v) := by
  cases v with
  | array xs =>
      rw [normalizedVariants, normalizeAll_eq_map]
      intro ys heq y hy
      cases heq
      obtain ⟨x, hx, rfl⟩ := List.mem_map.mp hy
      exact h xs rfl x hx
  | _ => simp [normalizedVariants, IsNormalSet]

/-- What was brought into normal form is in normal form. -/
theorem isNormal_normalize (v : Value) : IsNormal (normalize v) := by
  refine v.part_induction (P := fun v => IsNormal (normalize v)) ?_ ?_
  · intro v hv
    rw [IsNormal, normalize_of_not_isObject hv, normalize_of_not_isObject hv]
  · intro ms ih
    have properties : ∀ v, (.str "properties", v) ∈ mapAt "properties" normalizedProperties ms →
        IsNormalFields v := by
      intro v hv
      obtain ⟨u, hu, rfl⟩ := Members.mem_mapAt hv
      exact isNormalFields_normalizedProperties (ih _ hu).members
    rcases nodeKind ms with htype | htype | ⟨htype, hobject, harray⟩ | ⟨htype, hps⟩ |
      @⟨xs, htype, hps, hset⟩ | ⟨htype, hps, hset⟩
    · rw [normalize_of_object htype, isNormal_object_iff]
      refine .object ?_ (has_ensure _ _ _) fun v hv => ?_
      · rw [find?_ensure_of_ne (by simp), Members.find?_mapAt, if_neg (by simp), htype]
      · rcases mem_ensure hv with hv | hv
        · exact properties v hv
        · exact (Prod.mk.inj hv).2 ▸ ⟨[], rfl, by simp⟩
    · rw [normalize_of_array htype, isNormal_object_iff]
      refine .array ?_ (has_ensure _ _ _) fun v hv => ?_
      · rw [find?_ensure_of_ne (by simp), Members.find?_mapAt, if_neg (by simp), htype]
      · rcases mem_ensure hv with hv | hv
        · obtain ⟨u, hu, rfl⟩ := Members.mem_mapAt hv
          exact isNormalNode_normalizedItems (ih _ hu).self
        · exact (Prod.mk.inj hv).2 ▸ isNormalNode_stringNode
    · rw [normalize_of_typed htype hobject harray, isNormal_object_iff]
      exact .typed htype hobject harray
    · rw [normalize_of_implied htype hps, isNormal_object_iff]
      refine .object ?_ ?_ fun v hv => ?_
      · rw [find?_ensure, Members.find?_mapAt, if_neg (by simp), htype]
        rfl
      · rw [Members.has, find?_ensure_of_ne (by simp), ← Members.has, Members.has_mapAt,
          Members.has, hps]
        rfl
      · rcases mem_ensure hv with hv | hv
        · exact properties v hv
        · simp at hv
    · rw [normalize_of_variants htype hps hset, isNormal_object_iff]
      refine @NormalNode.variants _ (normalizeAll xs) ?_ (fun ps => ?_) ?_ fun v hv => ?_
      · rw [Members.find?_mapAt, if_neg (by simp), htype]
      · rw [Members.find?_mapAt, if_neg (by simp)]
        exact hps ps
      · rw [Members.find?_mapAt, if_pos rfl, hset]
        rfl
      · obtain ⟨u, hu, rfl⟩ := Members.mem_mapAt hv
        exact isNormalSet_normalizedVariants (ih _ hu).elements
    · rw [normalize_of_bare htype hps hset, isNormal_object_iff]
      refine .typed (t := .str "string") ?_ (by simp) (by simp)
      rw [find?_ensure, htype]
      rfl

/-! ### The switch for required fields -/

theorem mem_switchNames {required : Bool} {ps ms : Members} {word : String} {v : Value}
    (hword : word ≠ "required") (h : (.str word, v) ∈ switchNames required ps ms) :
    (.str word, v) ∈ ms := by
  cases required with
  | true =>
      rcases Members.mem_insert_at h with h | ⟨hkey, -⟩
      · exact h
      · exact absurd (Scalar.str.inj hkey).symm hword
  | false => exact List.mem_of_mem_filter h

theorem isContainer_of_declaresContainer {p : Value} (h : declaresContainer p = true) :
    isContainer p = true := by
  cases p with
  | object ms =>
      rw [declaresContainer] at h
      cases htype : Members.find? (.str "type") ms with
      | none => simp [htype] at h
      | some t =>
          rw [htype] at h
          simpa [isContainer, impliedType, htype] using h
  | _ => simp [declaresContainer] at h

theorem isNormalFields_switchedProperties {required : Bool} {v : Value} (hv : IsNormalFields v)
    (h : ∀ ps, v = .object ps → ∀ m ∈ ps, IsNormal m.2 → IsNormal (switchRequired required m.2)) :
    IsNormalFields (switchedProperties required v) := by
  obtain ⟨ps, rfl, hps⟩ := hv
  rw [switchedProperties_object]
  refine ⟨_, rfl, fun n hn => ?_⟩
  obtain ⟨m, hm, rfl⟩ := List.mem_map.mp hn
  by_cases hpicked : declaresContainer m.2 = true
  · rw [if_pos hpicked]
    exact fun _ => h ps rfl m hm (hps m hm (isContainer_of_declaresContainer hpicked))
  · rw [if_neg hpicked]
    exact hps m hm

/-- The switch for required fields keeps a document in normal form. -/
theorem IsNormal.switchRequired {v : Value} (h : IsNormal v) (required : Bool) :
    IsNormal (Schema.switchRequired required v) := by
  revert h
  refine v.part_induction
    (P := fun v => IsNormal v → IsNormal (Schema.switchRequired required v)) ?_ ?_
  · intro v hv h
    rwa [switchRequired_of_not_isObject required hv]
  · intro ms ih h
    cases isNormal_object_iff.mp h with
    | object htype present properties =>
        obtain ⟨v, hv⟩ := Option.isSome_iff_exists.mp present
        obtain ⟨ps, rfl, -⟩ := properties v (Members.mem_of_find? ⟨_, rfl⟩ hv)
        rw [switchRequired_of_object required htype hv, isNormal_object_iff]
        refine .object ?_ ?_ fun w hw => ?_
        · rw [find?_switchNames_of_ne _ _ _ (by simp), Members.find?_mapAt, if_neg (by simp), htype]
        · rw [Members.has, find?_switchNames_of_ne _ _ _ (by simp), ← Members.has,
            Members.has_mapAt]
          exact present
        · obtain ⟨u, hu, rfl⟩ := Members.mem_mapAt (mem_switchNames (by simp) hw)
          exact isNormalFields_switchedProperties (properties u hu) (ih _ hu).members
    | array htype present items =>
        rw [switchRequired_of_array required htype, isNormal_object_iff]
        refine .array ?_ ?_ fun w hw => ?_
        · rw [Members.find?_mapAt, if_neg (by simp), htype]
        · rw [Members.has_mapAt]
          exact present
        · obtain ⟨u, hu, rfl⟩ := Members.mem_mapAt hw
          obtain ⟨⟨us, rfl⟩, hnormal⟩ := items u hu
          obtain ⟨ns, hns, -⟩ := rewrites_switchRequired required us
          exact ⟨⟨ns, hns⟩, (ih _ hu).self hnormal⟩
    | typed htype hobject harray =>
        rwa [switchRequired_of_not_declaresContainer]
        simp [declaresContainer, htype, isContainerType_eq_false hobject harray]
    | variants htype hps hset variants =>
        rwa [switchRequired_of_not_declaresContainer]
        simp [declaresContainer, htype]

end Schema

end SchemaForge
