import SchemaForge.Inference.Node
import SchemaForge.Proofs.Inference.Samples
import SchemaForge.Proofs.Value.Alike

/-!
When a node accepts a sample, said without reference to how nodes are inferred. A set of variants
accepts what one of its variants accepts. Any other node has to allow the type of the sample; an
object may carry only keys that the node has properties for, has to carry all that are required, and
each of its values is accepted by the property at its key; each element of an array is accepted by
the items.

Acceptance reads only five keywords of a node, does not see the order of members, and survives
bringing a node into its finished form.
-/

namespace SchemaForge.Inference

/-- The members of a node allow a type: it is the one that they declare, or is on the list that they
declare. -/
def Declares (ms : Members) (type : String) : Prop :=
  ∃ declared, Members.find? (.str "type") ms = some declared ∧
    (declared = .str type ∨ ∃ ts, declared = .array ts ∧ Value.str type ∈ ts)

/-- Every name that the members of a node require is among some keys. -/
def RequiresAmong (ms : Members) (keys : List Scalar) : Prop :=
  ∀ required, Members.find? (.str "required") ms = some required →
    ∃ names, required = .array names ∧ ∀ n ∈ names, ∃ k ∈ keys, n = .scalar k

inductive Accepts : Value → Sample → Prop where
  | variant {ms : Members} {xs : List Value} {x : Value} {v : Sample}
      (set : Members.find? (.str "oneOf") ms = some (.array xs)) (mem : x ∈ xs)
      (accepts : Accepts x v) : Accepts (.object ms) v
  | plain {ms : Members} {v : Sample} (noSet : Members.find? (.str "oneOf") ms = none)
      (declares : Declares ms v.type) (isPlain : v.isContainer = false) : Accepts (.object ms) v
  | object {ms ps : Members} {fields : List (Scalar × Sample)}
      (noSet : Members.find? (.str "oneOf") ms = none) (declares : Declares ms "object")
      (properties : Members.find? (.str "properties") ms = some (.object ps))
      (known : ∀ m ∈ fields, ∃ p, Members.find? m.1 ps = some p)
      (values : ∀ m ∈ fields, ∀ p, Members.find? m.1 ps = some p → Accepts p m.2)
      (required : RequiresAmong ms (fields.map (·.1))) : Accepts (.object ms) (.object fields)
  | array {ms : Members} {items : Value} {xs : List Sample}
      (noSet : Members.find? (.str "oneOf") ms = none) (declares : Declares ms "array")
      (isItems : Members.find? (.str "items") ms = some items)
      (elements : ∀ x ∈ xs, Accepts items x) : Accepts (.object ms) (.array xs)

/-- The keywords that acceptance reads. -/
def acceptanceWords : List String := ["oneOf", "type", "properties", "required", "items"]

/-- Nodes that agree on the keywords that acceptance reads accept the same. -/
theorem Accepts.congr {ms ns : Members} {v : Sample} (h : Accepts (.object ms) v)
    (hagree : ∀ w ∈ acceptanceWords, Members.find? (.str w) ns = Members.find? (.str w) ms) :
    Accepts (.object ns) v := by
  have hset : Members.find? (.str "oneOf") ns = Members.find? (.str "oneOf") ms :=
    hagree _ (by decide)
  have hdeclares : ∀ t, Declares ms t → Declares ns t := by
    rintro t ⟨declared, hfind, ht⟩
    exact ⟨declared, (hagree "type" (by decide)).trans hfind, ht⟩
  cases h with
  | variant set mem accepts => exact .variant (hset.trans set) mem accepts
  | plain noSet declares isPlain => exact .plain (hset.trans noSet) (hdeclares _ declares) isPlain
  | object noSet declares properties known values required =>
      refine .object (hset.trans noSet) (hdeclares _ declares)
        ((hagree "properties" (by decide)).trans properties) known values ?_
      intro r hr
      exact required r ((hagree "required" (by decide)).symm.trans hr)
  | array noSet declares isItems elements =>
      exact .array (hset.trans noSet) (hdeclares _ declares)
        ((hagree "items" (by decide)).trans isItems) elements

theorem accepts_isObject {node : Value} {v : Sample} (h : Accepts node v) :
    ∃ ms, node = .object ms := by
  cases h <;> exact ⟨_, rfl⟩

/-- The empty node accepts nothing. -/
theorem not_accepts_empty (v : Sample) : ¬ Accepts (.object []) v := by
  intro h
  cases h with
  | variant set _ _ => simp at set
  | plain _ declares _ => obtain ⟨_, hfind, -⟩ := declares; simp at hfind
  | object _ declares _ _ _ _ => obtain ⟨_, hfind, -⟩ := declares; simp at hfind
  | array _ declares _ _ => obtain ⟨_, hfind, -⟩ := declares; simp at hfind

theorem truthy_of_accepts {node : Value} {v : Sample} (h : Accepts node v) : node.truthy = true := by
  obtain ⟨ms, rfl⟩ := accepts_isObject h
  cases ms with
  | nil => exact absurd h (not_accepts_empty v)
  | cons m ms => rfl

/-! ### The order of members -/

theorem Declares.of_alike {ms ns : Members} (hms : (Value.object ms).IsJson)
    (h : (Value.object ms).alike (.object ns) = true) {t : String} (hd : Declares ms t) :
    Declares ns t := by
  obtain ⟨declared, hfind, ht⟩ := hd
  obtain ⟨w, hw, hlike⟩ := Value.alike_find? hms h hfind
  refine ⟨w, hw, ?_⟩
  rcases ht with rfl | ⟨ts, rfl, hmem⟩
  · exact .inl (Value.alike_str_iff.mp hlike)
  · obtain ⟨us, rfl, hall⟩ := Value.exists_of_alike_array hlike
    obtain ⟨u, hu, hlike⟩ := exists_right_of_mem hall hmem
    exact .inr ⟨us, rfl, Value.alike_str_iff.mp hlike ▸ hu⟩

theorem RequiresAmong.of_alike {ms ns : Members} (hms : (Value.object ms).IsJson)
    (h : (Value.object ms).alike (.object ns) = true) {keys : List Scalar}
    (hr : RequiresAmong ms keys) : RequiresAmong ns keys := by
  intro required hfind
  obtain ⟨old, hold, hlike⟩ := Value.alike_find?_symm hms h ⟨_, rfl⟩ hfind
  obtain ⟨names, rfl, hnames⟩ := hr old hold
  obtain ⟨names', rfl, hall⟩ := Value.exists_of_alike_array hlike
  refine ⟨names', rfl, fun n' hn' => ?_⟩
  obtain ⟨n, hn, hlike⟩ := exists_left_of_mem hall hn'
  obtain ⟨k, hk, rfl⟩ := hnames n hn
  exact ⟨k, hk, Value.alike_scalar_iff.mp hlike⟩

/-- What accepts a sample does so in any order of members. -/
theorem Accepts.of_alike {c x : Value} {v : Sample} (h : Accepts c v) (hc : c.IsJson)
    (hlike : c.alike x = true) : Accepts x v := by
  induction h generalizing x with
  | @variant ms xs y v set mem _ ih =>
      obtain ⟨ns, rfl, -, -⟩ := Value.exists_of_alike_object hlike
      obtain ⟨w, hw, hset⟩ := Value.alike_find? hc hlike set
      obtain ⟨ys, rfl, hall⟩ := Value.exists_of_alike_array hset
      obtain ⟨z, hz, hyz⟩ := exists_right_of_mem hall mem
      have hy : y.IsJson := Value.isJson_array_iff.mp (Members.isJson_of_find? hc set) y mem
      exact .variant hw hz (ih hy hyz)
  | plain noSet declares isPlain =>
      obtain ⟨ns, rfl, -, -⟩ := Value.exists_of_alike_object hlike
      exact .plain (Value.alike_find?_eq_none hc hlike ⟨_, rfl⟩ noSet)
        (declares.of_alike hc hlike) isPlain
  | @object ms ps fields noSet declares properties known _ required ih =>
      obtain ⟨ns, rfl, -, -⟩ := Value.exists_of_alike_object hlike
      obtain ⟨w, hw, hprops⟩ := Value.alike_find? hc hlike properties
      have hps : (Value.object ps).IsJson := Members.isJson_of_find? hc properties
      obtain ⟨qs, rfl, -, -⟩ := Value.exists_of_alike_object hprops
      refine .object (Value.alike_find?_eq_none hc hlike ⟨_, rfl⟩ noSet)
        (declares.of_alike hc hlike) hw ?_ ?_ (required.of_alike hc hlike)
      · intro m hm
        obtain ⟨p, hp⟩ := known m hm
        obtain ⟨q, hq, -⟩ := Value.alike_find? hps hprops hp
        exact ⟨q, hq⟩
      · intro m hm q hq
        obtain ⟨p, hp⟩ := known m hm
        obtain ⟨q', hq', hpq⟩ := Value.alike_find? hps hprops hp
        rw [hq'] at hq
        cases hq
        exact ih m hm p hp (Members.isJson_of_find? hps hp) hpq
  | array noSet declares isItems elements ih =>
      obtain ⟨ns, rfl, -, -⟩ := Value.exists_of_alike_object hlike
      obtain ⟨w, hw, hitems⟩ := Value.alike_find? hc hlike isItems
      exact .array (Value.alike_find?_eq_none hc hlike ⟨_, rfl⟩ noSet)
        (declares.of_alike hc hlike) hw
        fun x hx => ih x hx (Members.isJson_of_find? hc isItems) hitems

end SchemaForge.Inference
