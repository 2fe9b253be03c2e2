import SchemaForge.Proofs.Schema.NormalForm

/-!
Complete nodes: nodes that say of themselves all that their type implies, down to the last container among
their properties. The values that normalization leaves alone are those in which every node is complete, and
what it makes of any value is of this kind. So normalizing a second time changes nothing, not even the order
of the members.
-/

namespace SchemaForge.Schema

/-- A value in which every node is complete. An object node has an object of properties, of which the
containers are complete, and an array node has items, which are a complete node; a node without a type is
a list of complete variants. No more is asked of a node of another type, nor of what is no object. -/
inductive Complete : Value → Prop where
  | other {v : Value} (notObject : ∀ ms, v ≠ .object ms) : Complete v
  | object {ms : Members} (isObject : Members.find? (.str "type") ms = some (.str "object"))
      (present : Members.has (.str "properties") ms = true)
      (properties : ∀ v, (.str "properties", v) ∈ ms → ∃ ps, v = .object ps)
      (fields : ∀ ps m, (.str "properties", .object ps) ∈ ms → m ∈ ps → isContainer m.2 = true →
        Complete m.2) : Complete (.object ms)
  | array {ms : Members} (isArray : Members.find? (.str "type") ms = some (.str "array"))
      (present : Members.has (.str "items") ms = true)
      (items : ∀ v, (.str "items", v) ∈ ms → ∃ ns, v = .object ns)
      (complete : ∀ v, (.str "items", v) ∈ ms → Complete v) : Complete (.object ms)
  | typed {ms : Members} {t : Value} (type : Members.find? (.str "type") ms = some t)
      (notObject : t ≠ .str "object") (notArray : t ≠ .str "array") : Complete (.object ms)
  | variants {ms : Members} {xs : List Value} (noType : Members.find? (.str "type") ms = none)
      (noProperties : ∀ ps, Members.find? (.str "properties") ms ≠ some (.object ps))
      (set : Members.find? (.str "oneOf") ms = some (.array xs))
      (complete : ∀ ys y, (.str "oneOf", .array ys) ∈ ms → y ∈ ys → Complete y) :
      Complete (.object ms)

theorem Complete.isNormal {v : Value} (h : Complete v) : IsNormal v := by
  induction h with
  | other notObject => exact normalize_of_not_isObject notObject
  | object isObject present properties _ ih =>
      refine isNormal_object_iff.mpr (.object isObject present fun v hv => ?_)
      obtain ⟨ps, rfl⟩ := properties v hv
      exact ⟨ps, rfl, fun m hm => ih ps m hv hm⟩
  | array isArray present items _ ih =>
      exact isNormal_object_iff.mpr (.array isArray present fun v hv => ⟨items v hv, ih v hv⟩)
  | typed type notObject notArray =>
      exact isNormal_object_iff.mpr (.typed type notObject notArray)
  | variants noType noProperties set _ ih =>
      refine isNormal_object_iff.mpr (.variants noType noProperties set fun v hv xs heq x hx => ?_)
      exact ih xs x (heq ▸ hv) hx

theorem IsNormal.complete {v : Value} (h : IsNormal v) : Complete v := by
  refine v.part_induction (P := fun v => IsNormal v → Complete v) (fun v hv _ => .other hv) ?_ h
  intro ms ih h
  cases isNormal_object_iff.mp h with
  | object isObject present properties =>
      refine .object isObject present (fun v hv => ?_) fun ps m hps hm hcontainer => ?_
      · obtain ⟨ps, heq, -⟩ := properties v hv
        exact ⟨ps, heq⟩
      · obtain ⟨qs, heq, hqs⟩ := properties _ hps
        cases heq
        exact (ih _ hps).members ps rfl m hm (hqs m hm hcontainer)
  | array isArray present items =>
      exact .array isArray present (fun v hv => (items v hv).1)
        fun v hv => (ih _ hv).self (items v hv).2
  | typed type notObject notArray => exact .typed type notObject notArray
  | variants noType noProperties set variants =>
      refine .variants noType noProperties set fun ys y hys hy => ?_
      exact (ih _ hys).elements ys rfl y hy (variants _ hys ys rfl y hy)

/-- The values that normalization leaves alone. -/
theorem normalize_eq_self_iff {v : Value} : normalize v = v ↔ Complete v :=
  ⟨IsNormal.complete, Complete.isNormal⟩

/-- Normalization makes every node complete, and a second time it changes nothing. -/
theorem normalize_normalize (v : Value) :
    normalize (normalize v) = normalize v ∧ Complete (normalize v) := by
  have hself : normalize (normalize v) = normalize v := isNormal_normalize v
  exact ⟨hself, normalize_eq_self_iff.mp hself⟩

end SchemaForge.Schema
