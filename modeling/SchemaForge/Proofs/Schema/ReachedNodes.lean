import SchemaForge.Proofs.Schema.Replacement

/-!
The nodes that normalization comes to, from the root downwards, and what each of them says of itself afterwards.
Among properties it goes into containers only, and a node that is a property may do without a type; all others
have one or are a list of variants.
-/

namespace SchemaForge.Schema

/-- Where a node stands in a schema. -/
inductive Place where
  | root
  | property
  | items
  | variant
  deriving DecidableEq

/-- The nodes that are reached from a root. From an object node that is every object among its properties, and from
an array node its items; the variants are reached of a node that has no type and is no property. -/
inductive ReachedNode (root : Members) : Place → Members → Prop where
  | root : ReachedNode root .root root
  | property {place : Place} {ms fields ns : Members} {k : Scalar} (reached : ReachedNode root place ms)
      (isObject : Members.find? (.str "type") ms = some (.str "object"))
      (properties : Members.find? (.str "properties") ms = some (.object fields))
      (isProperty : (k, .object ns) ∈ fields) : ReachedNode root .property ns
  | items {place : Place} {ms ns : Members} (reached : ReachedNode root place ms)
      (isArray : Members.find? (.str "type") ms = some (.str "array"))
      (items : Members.find? (.str "items") ms = some (.object ns)) : ReachedNode root .items ns
  | variant {place : Place} {ms ns : Members} {xs : List Value} (reached : ReachedNode root place ms)
      (noProperty : place ≠ .property) (noType : Members.find? (.str "type") ms = none)
      (set : Members.find? (.str "oneOf") ms = some (.array xs)) (isVariant : .object ns ∈ xs) :
      ReachedNode root .variant ns

/-- A node with all that its type and its place ask for. -/
structure CompleteAt (place : Place) (ms : Members) : Prop where
  properties : Members.find? (.str "type") ms = some (.str "object") →
    ∃ ps, Members.find? (.str "properties") ms = some (.object ps)
  items : Members.find? (.str "type") ms = some (.str "array") →
    ∃ ns, ns ≠ [] ∧ Members.find? (.str "items") ms = some (.object ns)
  untyped : Members.find? (.str "type") ms = none →
    ∀ ps, Members.find? (.str "properties") ms ≠ some (.object ps)
  described : place ≠ .property → Members.has (.str "type") ms = true ∨
    ∃ xs, Members.find? (.str "oneOf") ms = some (.array xs)

/-- A node that is in normal form, if it is none of the properties that normalization leaves alone. -/
def NormalAt (place : Place) (ms : Members) : Prop :=
  (place = .property → isContainer (.object ms) = true) → IsNormal (.object ms)

section Node

variable {place : Place} {ms : Members} (h : NormalAt place ms)

include h

theorem NormalAt.of_isObject (isObject : Members.find? (.str "type") ms = some (.str "object")) :
    IsNormal (.object ms) :=
  h fun _ => by rw [isContainer_of_typed isObject]; rfl

theorem NormalAt.of_isArray (isArray : Members.find? (.str "type") ms = some (.str "array")) :
    IsNormal (.object ms) :=
  h fun _ => by rw [isContainer_of_typed isArray]; rfl

theorem NormalAt.of_ne_property (hplace : place ≠ .property) : IsNormal (.object ms) :=
  h fun hproperty => absurd hproperty hplace

end Node

/-- An empty object is not in normal form: it would be given a type. -/
theorem not_isNormal_empty : ¬ IsNormal (.object []) := by
  intro h
  cases isNormal_object_iff.mp h with
  | object isObject _ _ => cases isObject
  | array isArray _ _ => cases isArray
  | typed type _ _ => cases type
  | variants _ _ set _ => cases set

/-- Each step from node to node leads to one in normal form, or to a property that is left alone. -/
theorem ReachedNode.normalAt {root ms : Members} {place : Place} (hroot : IsNormal (.object root))
    (reached : ReachedNode root place ms) : NormalAt place ms := by
  induction reached with
  | root => exact fun _ => hroot
  | property _ isObject properties isProperty ih =>
      obtain ⟨_, heq, hnormal⟩ := exists_properties_of_isNormal (ih.of_isObject isObject) isObject
      cases properties.symm.trans heq
      exact fun hcontainer => hnormal _ isProperty (hcontainer rfl)
  | items _ isArray items ih =>
      exact fun _ => (isNormalNode_items (ih.of_isArray isArray) isArray items).2
  | variant _ noProperty noType set isVariant ih =>
      exact fun _ => isNormal_variant (ih.of_ne_property noProperty) noType set isVariant

theorem NormalAt.completeAt {place : Place} {ms : Members} (h : NormalAt place ms) :
    CompleteAt place ms where
  properties := fun isObject => by
    obtain ⟨ps, hps, -⟩ := exists_properties_of_isNormal (h.of_isObject isObject) isObject
    exact ⟨ps, hps⟩
  items := fun isArray => by
    have hnormal := h.of_isArray isArray
    cases isNormal_object_iff.mp hnormal with
    | array _ present _ =>
        obtain ⟨v, hv⟩ := Option.isSome_iff_exists.mp present
        obtain ⟨⟨ns, rfl⟩, hns⟩ := isNormalNode_items hnormal isArray hv
        refine ⟨ns, ?_, hv⟩
        rintro rfl
        exact not_isNormal_empty hns
    | object isObject _ _ => simp [isArray] at isObject
    | typed type _ notArray => exact absurd (Option.some.inj (isArray.symm.trans type)).symm notArray
    | variants noType _ _ _ => simp [isArray] at noType
  untyped := fun noType ps hps => by
    have hnormal := h fun _ => isContainer_of_implied noType hps
    cases isNormal_object_iff.mp hnormal with
    | variants _ noProperties _ _ => exact noProperties ps hps
    | object isObject _ _ => simp [noType] at isObject
    | array isArray _ _ => simp [noType] at isArray
    | typed type _ _ => simp [noType] at type
  described := fun hplace => by
    cases isNormal_object_iff.mp (h.of_ne_property hplace) with
    | object isObject _ _ => exact .inl (by rw [Members.has, isObject]; rfl)
    | array isArray _ _ => exact .inl (by rw [Members.has, isArray]; rfl)
    | typed type _ _ => exact .inl (by rw [Members.has, type]; rfl)
    | variants _ _ set _ => exact .inr ⟨_, set⟩

/-- Normalization leaves every node complete that is reached from the root: an object node has properties, an array
node has items that are not empty, a node without a type has no properties, and a node that is no property has a
type or variants. -/
theorem reached_complete (ms : Members) :
    ∃ root, normalize (.object ms) = .object root ∧
      ∀ place node, ReachedNode root place node → CompleteAt place node := by
  obtain ⟨root, heq, -⟩ := normalize_object ms
  have hroot : IsNormal (.object root) := heq ▸ isNormal_normalize (.object ms)
  exact ⟨root, heq, fun _ _ reached => (reached.normalAt hroot).completeAt⟩

def untypedRows : Members :=
  [(.str "properties", .object [(.str "rows", .object [(.str "type", .str "array"), (.str "items", .object
    [(.str "oneOf", .array [.object [(.str "type", .str "object")]])])])])]

def typedRows : Members :=
  [(.str "properties", .object [(.str "rows", .object [(.str "type", .str "array"), (.str "items", .object
    [(.str "oneOf", .array [.object [(.str "type", .str "object"), (.str "properties", .object [])]])])])]),
    (.str "type", .str "object")]

/-- The variant is reached, and has properties then. -/
theorem reached_complete_rows :
    normalize (.object untypedRows) = .object typedRows ∧ ∃ node, ReachedNode typedRows .variant node ∧
      ∃ ps, Members.find? (.str "properties") node = some (.object ps) := by
  obtain ⟨root, heq, hcomplete⟩ := reached_complete untypedRows
  obtain rfl : typedRows = root := Value.object.inj heq
  have start : ReachedNode typedRows .root typedRows := .root
  have rows := start.property rfl rfl List.mem_cons_self
  have items := rows.items rfl rfl
  have variant := items.variant (by decide) rfl rfl List.mem_cons_self
  exact ⟨heq, _, variant, (hcomplete _ _ variant).properties rfl⟩

end SchemaForge.Schema
