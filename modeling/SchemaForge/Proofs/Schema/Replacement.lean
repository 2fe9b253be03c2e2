import SchemaForge.Proofs.Schema.NormalForm
import SchemaForge.Schema.Default

/-!
What may stand in the place of a part of a document without taking the document out of its normal form. A
part has up to four roles: a node, a property, the properties of a node, the variants of a node. What takes
its place has to play those roles as well as the part did, and then the whole does too: whether the
document is in normal form never has to be looked at again.
-/

namespace SchemaForge

namespace Members

theorem has_insert_of_has {k l : Scalar} (v : Value) {ms : Members} (h : has l ms = true) :
    has l (insert k v ms) = true := by
  by_cases hsame : k.same l = true
  · have hfind : find? l (insert k v ms) = find? k (insert k v ms) := by
      have hcanonical : k.canonical = l.canonical := by simpa [Scalar.same] using hsame
      induction insert k v ms with
      | nil => rfl
      | cons m ns ih =>
          obtain ⟨n, w⟩ := m
          simp only [find?, Scalar.same, hcanonical, ih]
    rw [has, hfind, find?_insert_self]
    rfl
  · rw [has, find?_insert_of_not_same (Bool.eq_false_iff.mpr hsame)]
    exact h

end Members

namespace Schema

open Value (SameKind)

/-! ### Roles -/

/-- What can take the place of a value as a node and as a property. -/
structure Replaces (v w : Value) : Prop where
  sameKind : SameKind v w
  node : IsNormal v → IsNormal w
  property : IsNormalProperty v → IsNormalProperty w

/-- What can take the place of a value in all of its roles. -/
structure ReplacesAnywhere (v w : Value) : Prop extends Replaces v w where
  fields : IsNormalFields v → IsNormalFields w
  set : IsNormalSet v → IsNormalSet w

theorem isNormalNode_of_sameKind {v w : Value} (kind : SameKind v w) (h : IsNormal v → IsNormal w)
    (hv : IsNormalNode v) : IsNormalNode w := by
  cases kind with
  | object ms ns => exact ⟨⟨ns, rfl⟩, h hv.2⟩
  | array xs ys => simp [IsNormalNode] at hv

/-! ### Containers -/

section Container

variable {ms : Members}

theorem isContainer_of_typed {t : Value} (h : Members.find? (.str "type") ms = some t) :
    isContainer (.object ms) = isContainerType t := by
  rw [isContainer, impliedType, h, Option.any_some]

theorem isContainer_of_implied {ps : Members} (h : Members.find? (.str "type") ms = none)
    (hps : Members.find? (.str "properties") ms = some (.object ps)) :
    isContainer (.object ms) = true := by
  simp only [isContainer, impliedType, h, hps]
  rfl

theorem isContainer_of_untyped (h : Members.find? (.str "type") ms = none)
    (hps : ∀ ps, Members.find? (.str "properties") ms ≠ some (.object ps)) :
    isContainer (.object ms) = false := by
  simp only [isContainer, impliedType, h]
  rfl

end Container

/-! ### Something else at one key -/

section Member

variable {ms : Members} {k : Scalar} {v w : Value} (hfind : Members.find? k ms = some v)
  (kind : SameKind v w)

include hfind

/-- What stands at a keyword afterwards is what stood there before, unless it is the key that was written
at. -/
theorem find?_insert_cases (word : String) :
    Members.find? (.str word) (Members.insert k w ms) = Members.find? (.str word) ms ∨
      Members.find? (.str word) ms = some v ∧
        Members.find? (.str word) (Members.insert k w ms) = some w := by
  by_cases hk : k = .str word
  · subst hk
    exact .inr ⟨hfind, Members.find?_insert_self _ _ _⟩
  · exact .inl (by rw [Members.find?_insert ⟨_, rfl⟩, if_neg hk])

theorem find?_insert_eq_none {word : String} (h : Members.find? (.str word) ms = none) :
    Members.find? (.str word) (Members.insert k w ms) = none := by
  rcases find?_insert_cases hfind word with heq | ⟨heq, -⟩
  · rw [heq, h]
  · rw [h] at heq
    cases heq

include kind

theorem find?_insert_of_text {word text : String}
    (h : Members.find? (.str word) ms = some (.str text)) :
    Members.find? (.str word) (Members.insert k w ms) = some (.str text) := by
  rcases find?_insert_cases hfind word with heq | ⟨heq, -⟩
  · rw [heq, h]
  · rw [h] at heq
    cases heq
    cases kind

theorem find?_insert_type {t : Value} (h : Members.find? (.str "type") ms = some t)
    (hobject : t ≠ .str "object") (harray : t ≠ .str "array") :
    ∃ u, Members.find? (.str "type") (Members.insert k w ms) = some u ∧ u ≠ .str "object" ∧
      u ≠ .str "array" := by
  rcases find?_insert_cases hfind "type" with heq | ⟨-, heq⟩
  · exact ⟨t, by rw [heq, h], hobject, harray⟩
  · refine ⟨w, heq, ?_, ?_⟩
    · rintro rfl
      cases kind
    · rintro rfl
      cases kind

theorem find?_insert_ne_object {word : String}
    (h : ∀ ps, Members.find? (.str word) ms ≠ some (.object ps)) :
    ∀ ps, Members.find? (.str word) (Members.insert k w ms) ≠ some (.object ps) := by
  intro ps hps
  rcases find?_insert_cases hfind word with heq | ⟨hold, hnew⟩
  · exact h ps (heq ▸ hps)
  · rw [hnew] at hps
    cases hps
    cases kind with
    | object rs _ => exact h rs hold

theorem exists_find?_insert_object {word : String} {ps : Members}
    (h : Members.find? (.str word) ms = some (.object ps)) :
    ∃ qs, Members.find? (.str word) (Members.insert k w ms) = some (.object qs) := by
  rcases find?_insert_cases hfind word with heq | ⟨hold, hnew⟩
  · exact ⟨ps, by rw [heq, h]⟩
  · rw [h] at hold
    cases hold
    cases kind with
    | object _ qs => exact ⟨qs, hnew⟩

theorem exists_find?_insert_array {word : String} {xs : List Value}
    (h : Members.find? (.str word) ms = some (.array xs)) :
    ∃ ys, Members.find? (.str word) (Members.insert k w ms) = some (.array ys) := by
  rcases find?_insert_cases hfind word with heq | ⟨hold, hnew⟩
  · exact ⟨xs, by rw [heq, h]⟩
  · rw [h] at hold
    cases hold
    cases kind with
    | array _ ys => exact ⟨ys, hnew⟩

theorem isContainer_insert :
    isContainer (.object (Members.insert k w ms)) = isContainer (.object ms) := by
  rcases nodeKind ms with htype | htype | ⟨htype, hobject, harray⟩ | @⟨ps, htype, hps⟩ |
    ⟨htype, hps, -⟩ | ⟨htype, hps, -⟩
  · rw [isContainer_of_typed htype, isContainer_of_typed (find?_insert_of_text hfind kind htype)]
  · rw [isContainer_of_typed htype, isContainer_of_typed (find?_insert_of_text hfind kind htype)]
  · obtain ⟨u, hu, huobject, huarray⟩ := find?_insert_type hfind kind htype hobject harray
    rw [isContainer_of_typed htype, isContainer_of_typed hu,
      isContainerType_eq_false hobject harray, isContainerType_eq_false huobject huarray]
  · obtain ⟨qs, hqs⟩ := exists_find?_insert_object hfind kind hps
    rw [isContainer_of_implied htype hps,
      isContainer_of_implied (find?_insert_eq_none hfind htype) hqs]
  all_goals
    rw [isContainer_of_untyped htype hps, isContainer_of_untyped
      (find?_insert_eq_none hfind htype) (find?_insert_ne_object hfind kind hps)]

/-- A node in which something else stands at one key, which plays the part that the key calls for. -/
theorem replaces_insert (properties : k = .str "properties" → IsNormalFields v → IsNormalFields w)
    (items : k = .str "items" → IsNormal v → IsNormal w)
    (set : k = .str "oneOf" → IsNormalSet v → IsNormalSet w) :
    Replaces (.object ms) (.object (Members.insert k w ms)) := by
  have hmem : ∀ {word : String}, k = .str word → (.str word, v) ∈ ms :=
    fun hk => hk ▸ Members.mem_of_find? ⟨_, hk⟩ hfind
  have node : IsNormal (.object ms) → IsNormal (.object (Members.insert k w ms)) := by
    rw [isNormal_object_iff, isNormal_object_iff]
    intro h
    cases h with
    | object htype present hproperties =>
        refine .object (find?_insert_of_text hfind kind htype) (Members.has_insert_of_has _ present)
          fun u hu => ?_
        rcases Members.mem_insert_at hu with hu | ⟨hk, rfl⟩
        · exact hproperties u hu
        · exact properties hk (hproperties v (hmem hk))
    | array htype present hitems =>
        refine .array (find?_insert_of_text hfind kind htype) (Members.has_insert_of_has _ present)
          fun u hu => ?_
        rcases Members.mem_insert_at hu with hu | ⟨hk, rfl⟩
        · exact hitems u hu
        · exact isNormalNode_of_sameKind kind (items hk) (hitems v (hmem hk))
    | typed htype hobject harray =>
        obtain ⟨u, hu, huobject, huarray⟩ := find?_insert_type hfind kind htype hobject harray
        exact .typed hu huobject huarray
    | variants htype hps hset hvariants =>
        obtain ⟨ys, hys⟩ := exists_find?_insert_array hfind kind hset
        refine .variants (find?_insert_eq_none hfind htype)
          (find?_insert_ne_object hfind kind hps) hys fun u hu => ?_
        rcases Members.mem_insert_at hu with hu | ⟨hk, rfl⟩
        · exact hvariants u hu
        · exact set hk (hvariants v (hmem hk))
  refine ⟨.object _ _, node, fun h hcontainer => node (h ?_)⟩
  rwa [isContainer_insert hfind kind] at hcontainer

omit kind in
/-- Properties of which one is another property. -/
theorem isNormalFields_insert (property : IsNormalProperty v → IsNormalProperty w)
    (h : IsNormalFields (.object ms)) : IsNormalFields (.object (Members.insert k w ms)) := by
  obtain ⟨ps, heq, hps⟩ := h
  cases heq
  refine ⟨_, rfl, fun m hm => ?_⟩
  rcases Members.mem_of_mem_insert hm with hm | hm
  · obtain ⟨l, hl, -⟩ := Members.exists_mem_of_find? hfind
    exact hm ▸ property (hps _ hl)
  · exact hps m hm

end Member

/-! ### From a part to the whole -/

theorem isNormal_array (xs : List Value) : IsNormal (.array xs) :=
  normalize_of_not_isObject (by simp)

theorem isNormalProperty_array (xs : List Value) : IsNormalProperty (.array xs) :=
  fun _ => isNormal_array xs

theorem IsNormalSet.set {xs : List Value} {n : Nat} {v w : Value} (hv : xs[n]? = some v)
    (h : IsNormal v → IsNormal w) (hxs : IsNormalSet (.array xs)) :
    IsNormalSet (.array (xs.set n w)) := by
  intro ys heq y hy
  cases heq
  rcases List.mem_or_eq_of_mem_set hy with hy | rfl
  · exact hxs xs rfl y hy
  · exact h (hxs xs rfl v (List.mem_of_getElem? hv))

/-- A container in which something else stands where a segment leads. -/
theorem ReplacesAnywhere.setChild {c s v w : Value} (h : ReplacesAnywhere v w)
    (hchild : c.child s = .ok (some v)) : ReplacesAnywhere c (c.setChild s w) := by
  obtain ⟨ms, k, rfl, rfl, hfind⟩ | ⟨xs, i, n, rfl, rfl, hn, hv⟩ := Value.exists_of_child hchild
  · exact {
      replaces_insert hfind h.sameKind (fun _ => h.fields) (fun _ => h.node) (fun _ => h.set) with
      fields := isNormalFields_insert hfind h.property
      set := by simp [IsNormalSet, Value.setChild] }
  · simp only [Value.setChild, hn]
    exact {
      sameKind := .array _ _
      node := fun _ => isNormal_array _
      property := fun _ => isNormalProperty_array _
      fields := by simp [IsNormalFields]
      set := IsNormalSet.set hv h.node }

/-- What can take the place of a part can do so in the whole, wherever the part stands. -/
theorem ReplacesAnywhere.put {path : Path} :
    ∀ {doc v w : Value}, ReplacesAnywhere v w → doc.get path = .ok v →
      ReplacesAnywhere doc (doc.put path w) := by
  induction path with
  | nil =>
      intro doc v w h hget
      cases hget
      rwa [Value.put_nil]
  | cons s path ih =>
      intro doc v w h hget
      obtain ⟨c, hchild, hget⟩ := Value.get_cons_eq_ok_iff.mp hget
      rw [Value.put_cons hchild]
      exact (ih h hget).setChild hchild

/-! ### Objects below properties and items -/

/-- A node of type object, with the path that leads to it through properties and items. -/
inductive ObjectAt : Value → Path → Members → Prop where
  | root {ms : Members} (isObject : Members.find? (.str "type") ms = some (.str "object")) :
      ObjectAt (.object ms) [] ms
  | field {ms ps ns : Members} {name : Scalar} {v : Value} {path : Path}
      (properties : Members.find? (.str "properties") ms = some (.object ps))
      (value : Members.find? name ps = some v) (node : ObjectAt v path ns) :
      ObjectAt (.object ms) (.str "properties" :: .scalar name :: path) ns
  | items {ms ns : Members} {v : Value} {path : Path}
      (items : Members.find? (.str "items") ms = some v) (node : ObjectAt v path ns) :
      ObjectAt (.object ms) (.str "items" :: path) ns

theorem ObjectAt.get {doc : Value} {path : Path} {ms : Members} (h : ObjectAt doc path ms) :
    doc.get path = .ok (.object ms) := by
  induction h with
  | root _ => rfl
  | @field ms ps ns name v path properties value _ ih =>
      refine Value.get_cons_eq_ok_iff.mpr ⟨.object ps, by simp [Value.child, properties], ?_⟩
      exact Value.get_cons_eq_ok_iff.mpr ⟨v, by simp [Value.child, value], ih⟩
  | @items ms ns v path items _ ih =>
      exact Value.get_cons_eq_ok_iff.mpr ⟨v, by simp [Value.child, items], ih⟩

theorem ObjectAt.isObject {doc : Value} {path : Path} {ms : Members} (h : ObjectAt doc path ms) :
    Members.find? (.str "type") ms = some (.str "object") := by
  induction h with
  | root isObject => exact isObject
  | field _ _ _ ih => exact ih
  | items _ _ ih => exact ih

theorem ObjectAt.put {doc : Value} {path : Path} {ms ns : Members} (node : ObjectAt doc path ms)
    (h : Replaces (.object ms) (.object ns)) : Replaces doc (doc.put path (.object ns)) := by
  induction node with
  | root _ => rwa [Value.put_nil]
  | @field rs ps _ name v path properties value _ ih =>
      have hroot : (Value.object rs).child (.str "properties") = .ok (some (.object ps)) := by
        simp [Value.child, properties]
      have hfield : (Value.object ps).child (.scalar name) = .ok (some v) := by
        simp [Value.child, value]
      rw [Value.put_cons hroot, Value.put_cons hfield]
      exact replaces_insert properties (.object _ _)
        (fun _ => isNormalFields_insert value (ih h).property) (by simp) (by simp)
  | @items rs _ v path items _ ih =>
      have hroot : (Value.object rs).child (.str "items") = .ok (some v) := by
        simp [Value.child, items]
      rw [Value.put_cons hroot]
      exact replaces_insert items (ih h).sameKind (by simp) (fun _ => (ih h).node) (by simp)

/-! ### One object for another -/

/-- An object node that differs from another one in properties that are as good, and in keywords that its
normal form does not go by. -/
structure Refits (ms ns : Members) : Prop where
  type : Members.find? (.str "type") ns = Members.find? (.str "type") ms
  present : Members.has (.str "properties") ms = true → Members.has (.str "properties") ns = true
  properties : (∀ v, (.str "properties", v) ∈ ms → IsNormalFields v) →
    ∀ v, (.str "properties", v) ∈ ns → IsNormalFields v

theorem Refits.refl (ms : Members) : Refits ms ms := ⟨rfl, id, id⟩

theorem Refits.trans {ms ns os : Members} (h : Refits ms ns) (h' : Refits ns os) : Refits ms os :=
  ⟨h'.type.trans h.type, h'.present ∘ h.present, h'.properties ∘ h.properties⟩

theorem Refits.replaces {ms ns : Members} (h : Refits ms ns)
    (isObject : Members.find? (.str "type") ms = some (.str "object")) :
    Replaces (.object ms) (.object ns) := by
  have htype : Members.find? (.str "type") ns = some (.str "object") := h.type.trans isObject
  have node : IsNormal (.object ms) → IsNormal (.object ns) := by
    rw [isNormal_object_iff, isNormal_object_iff]
    intro hnormal
    cases hnormal with
    | object _ present properties =>
        exact .object htype (h.present present) (h.properties properties)
    | array harray _ _ => simp [isObject] at harray
    | typed heq hobject _ => exact absurd (Option.some.inj (heq.symm.trans isObject)) hobject
    | variants hnone _ _ _ => simp [isObject] at hnone
  refine ⟨.object _ _, node, fun hproperty _ => node (hproperty ?_)⟩
  rw [isContainer_of_typed isObject]
  rfl

theorem refits_insert_properties {ms : Members} {v : Value}
    (h : (∀ w, Members.find? (.str "properties") ms = some w → IsNormalFields w) →
      IsNormalFields v) : Refits ms (Members.insert (.str "properties") v ms) where
  type := by simp
  present := fun _ => by simp [Members.has]
  properties := by
    intro hproperties w hw
    rcases Members.mem_insert_at hw with hw | ⟨-, rfl⟩
    · exact hproperties w hw
    · exact h fun u hu => hproperties u (Members.mem_of_find? ⟨_, rfl⟩ hu)

theorem refits_insert_required (ms : Members) (v : Value) :
    Refits ms (Members.insert (.str "required") v ms) where
  type := by simp
  present := Members.has_insert_of_has v
  properties := by
    intro hproperties w hw
    rcases Members.mem_insert_at hw with hw | ⟨hk, -⟩
    · exact hproperties w hw
    · simp at hk

theorem refits_erase_required (ms : Members) :
    Refits ms (Members.erase (.str "required") ms) where
  type := Members.find?_erase_of_ne ⟨_, rfl⟩ (by simp) ms
  present := by
    rw [Members.has, Members.has, Members.find?_erase_of_ne ⟨_, rfl⟩ (by simp)]
    exact id
  properties := fun hproperties w hw => hproperties w (List.mem_of_mem_filter hw)

/-! ### The shape of a type -/

theorem isNormal_shape (t : SchemaType) : IsNormal t.shape := by
  cases t <;> rfl

theorem isNormalFields_shape (t : SchemaType) : IsNormalFields t.shape := by
  cases t with
  | array => exact ⟨_, rfl, by simp [IsNormalProperty, isContainer, impliedType, isContainerType]⟩
  | object => exact ⟨_, rfl, by simp [IsNormalProperty, isContainer, impliedType]⟩
  | _ => exact ⟨_, rfl, by simp [IsNormalProperty, isContainer]⟩

/-- The keywords that the normal form of a node goes by. -/
def normalWords : List String := ["type", "properties", "items", "oneOf"]

/-- At any other keyword a node in normal form may hold anything. -/
theorem isNormal_insert {ms : Members} {word : String} (hword : word ∉ normalWords) (v : Value)
    (h : IsNormal (.object ms)) : IsNormal (.object (Members.insert (.str word) v ms)) := by
  rw [isNormal_object_iff] at h ⊢
  have hne : ∀ {w}, w ∈ normalWords → word ≠ w := fun hw heq => hword (heq ▸ hw)
  have hfind : ∀ w ∈ normalWords,
      Members.find? (.str w) (Members.insert (.str word) v ms) = Members.find? (.str w) ms :=
    fun w hw => by simp [hne hw]
  have hmem : ∀ {w u}, w ∈ normalWords →
      (.str w, u) ∈ Members.insert (.str word) v ms → (.str w, u) ∈ ms :=
    fun hw hu => (Members.mem_insert_at hu).resolve_right
      fun hnew => hne hw (Scalar.str.inj hnew.1)
  cases h with
  | object htype present properties =>
      exact .object (by rw [hfind _ (by decide), htype]) (Members.has_insert_of_has v present)
        fun w hw => properties w (hmem (by decide) hw)
  | array htype present items =>
      exact .array (by rw [hfind _ (by decide), htype]) (Members.has_insert_of_has v present)
        fun w hw => items w (hmem (by decide) hw)
  | typed htype hobject harray =>
      exact .typed (by rw [hfind _ (by decide), htype]) hobject harray
  | variants htype hps hset variants =>
      exact .variants (by rw [hfind _ (by decide), htype])
        (fun ps => by rw [hfind _ (by decide)]; exact hps ps) (by rw [hfind _ (by decide), hset])
        fun w hw => variants w (hmem (by decide) hw)

/-- The shape of a type can stand wherever an object stood, and may take over its description. -/
theorem replacesAnywhere_shape {ms ns : Members} {t : SchemaType} (hshape : t.shape = .object ns) :
    ReplacesAnywhere (.object ms) (.object ns) ∧
      ∀ v, Members.find? (.str "description") ms = some v →
        ReplacesAnywhere (.object ms) (.object (Members.insert (.str "description") v ns)) := by
  have hnormal : IsNormal (.object ns) := hshape ▸ isNormal_shape t
  have hfields : IsNormalFields (.object ns) := hshape ▸ isNormalFields_shape t
  refine ⟨⟨⟨.object _ _, fun _ => hnormal, fun _ _ => hnormal⟩, fun _ => hfields,
    by simp [IsNormalSet]⟩, fun v hv => ?_⟩
  have hdescribed : IsNormal (.object (Members.insert (.str "description") v ns)) :=
    isNormal_insert (by decide) v hnormal
  refine ⟨⟨.object _ _, fun _ => hdescribed, fun _ _ => hdescribed⟩, fun h => ?_,
    by simp [IsNormalSet]⟩
  -- Among properties the description is a property like the others.
  obtain ⟨ps, heq, hps⟩ := h
  cases heq
  obtain ⟨qs, heq, hqs⟩ := hfields
  cases heq
  refine ⟨_, rfl, fun m hm => ?_⟩
  rcases Members.mem_of_mem_insert hm with hm | hm
  · exact hm ▸ hps _ (Members.mem_of_find? ⟨_, rfl⟩ hv)
  · exact hqs m hm

end Schema

end SchemaForge
