import Mathlib.Data.List.Infix
import SchemaForge.Proofs.Path.Lens
import SchemaForge.Proofs.Schema.Normalization

/-!
Normalization only adds. Whatever a path leads to is found again at the same path: a scalar unchanged, a list with as
many elements, an object with its keys in their order and perhaps a keyword after them. This fails at two places
alone, the properties of a node that are no object and the items of a node that are no object or an empty one, for
which normalization puts something else; so the paths are those that do not go through such a misfit.
-/

namespace SchemaForge.Schema

open Members (mapAt)

/-! ### What is added -/

/-- The same scalar, a list of the same length, or an object with the same keys in the same order, after which one of
the keywords that normalization adds may stand. -/
inductive Extends : Value → Value → Prop where
  | scalar (s : Scalar) : Extends (.scalar s) (.scalar s)
  | array {xs ys : List Value} (length : ys.length = xs.length) : Extends (.array xs) (.array ys)
  | object {ms ns : Members} {added : List Scalar} (keys : Members.keys ns = Members.keys ms ++ added)
      (keywords : ∀ k ∈ added, k ∈ [.str "type", .str "properties", .str "items"]) :
      Extends (.object ms) (.object ns)

theorem Extends.refl (v : Value) : Extends v v := by
  cases v with
  | scalar s => exact .scalar s
  | array xs => exact .array rfl
  | object ms => exact .object (List.append_nil _).symm (by simp)

/-- A keyword that is added if it is missing leaves all keys before it. -/
theorem extends_ensure {name : String} (hname : name ∈ ["type", "properties", "items"]) {ms ns : Members}
    (hkeys : Members.keys ns = Members.keys ms) (v : Value) : Extends (.object ms) (.object (ensure name v ns)) := by
  rw [ensure]
  split
  · exact .object (hkeys.trans (List.append_nil _).symm) (by simp)
  · refine @Extends.object ms _ [.str name] ?_ (by simpa using hname)
    rw [Members.keys, List.map_append, ← Members.keys, hkeys]
    rfl

/-- The places at which normalization does not keep what stands there, seen from a node above: properties that are no
object, items that are no object or an empty one. -/
inductive Misfit : Value → Path → Prop where
  | properties {ms : Members} {v : Value} (properties : Members.find? (.str "properties") ms = some v)
      (noObject : ∀ ps, v ≠ .object ps) : Misfit (.object ms) [.str "properties"]
  | items {ms : Members} {v : Value} (items : Members.find? (.str "items") ms = some v)
      (noNode : ∀ ns, ns ≠ [] → v ≠ .object ns) : Misfit (.object ms) [.str "items"]
  | inProperty {ms ps : Members} {k : Scalar} {v : Value} {p : Path}
      (properties : Members.find? (.str "properties") ms = some (.object ps))
      (property : Members.find? k ps = some v) (rest : Misfit v p) :
      Misfit (.object ms) (.str "properties" :: .scalar k :: p)
  | inItems {ms : Members} {v : Value} {p : Path} (items : Members.find? (.str "items") ms = some v)
      (rest : Misfit v p) : Misfit (.object ms) (.str "items" :: p)
  | inVariant {ms : Members} {xs : List Value} {s v : Value} {p : Path}
      (set : Members.find? (.str "oneOf") ms = some (.array xs))
      (variant : (Value.array xs).child s = .ok (some v)) (rest : Misfit v p) :
      Misfit (.object ms) (.str "oneOf" :: s :: p)

/-- A misfit is found at its path, of which the last segment tells what it is. -/
theorem Misfit.exists_get {doc : Value} {q : Path} (h : Misfit doc q) :
    ∃ p word v, q = p ++ [.str word] ∧ doc.get q = .ok v ∧
      ((word = "properties" ∧ ∀ ps, v ≠ .object ps) ∨
        (word = "items" ∧ ∀ ns, ns ≠ [] → v ≠ .object ns)) := by
  induction h with
  | properties properties noObject =>
      exact ⟨[], _, _, rfl, Value.get_key_eq_ok_iff.mpr ⟨_, properties, rfl⟩, .inl ⟨rfl, noObject⟩⟩
  | items items noNode =>
      exact ⟨[], _, _, rfl, Value.get_key_eq_ok_iff.mpr ⟨_, items, rfl⟩, .inr ⟨rfl, noNode⟩⟩
  | @inProperty _ _ k _ _ properties property _ ih =>
      obtain ⟨p, word, v, rfl, hget, hv⟩ := ih
      have hbelow := Value.get_key_eq_ok_iff.mpr ⟨_, property, hget⟩
      exact ⟨.str "properties" :: .scalar k :: p, word, v, rfl,
        Value.get_key_eq_ok_iff.mpr ⟨_, properties, hbelow⟩, hv⟩
  | inItems items _ ih =>
      obtain ⟨p, word, v, rfl, hget, hv⟩ := ih
      exact ⟨.str "items" :: p, word, v, rfl, Value.get_key_eq_ok_iff.mpr ⟨_, items, hget⟩, hv⟩
  | @inVariant _ _ s _ _ set variant _ ih =>
      obtain ⟨p, word, v, rfl, hget, hv⟩ := ih
      have hbelow := Value.get_cons_eq_ok_iff.mpr ⟨_, variant, hget⟩
      exact ⟨.str "oneOf" :: s :: p, word, v, rfl, Value.get_key_eq_ok_iff.mpr ⟨_, set, hbelow⟩, hv⟩

/-- No beginning of a path leads to a misfit. -/
def Fits (doc : Value) (q : Path) : Prop := ∀ r, r <+: q → ¬ Misfit doc r

/-! ### One step -/

/-- What becomes of a part of a document, with a path from there that leads through no misfit: it stays, or it is a
node, the properties of one or its variants, and is brought into normal form. -/
inductive NormalizedPart (q : Path) : Value → Value → Prop where
  | same (v : Value) : NormalizedPart q v v
  | node {v : Value} (fits : Fits v q) : NormalizedPart q v (normalize v)
  | fields {ps : Members}
      (fits : ∀ k p v, q = .scalar k :: p → Members.find? k ps = some v → Fits v p) :
      NormalizedPart q (.object ps) (normalizedProperties (.object ps))
  | variants {xs : List Value}
      (fits : ∀ s p v, q = s :: p → (Value.array xs).child s = .ok (some v) → Fits v p) :
      NormalizedPart q (.array xs) (normalizedVariants (.array xs))

theorem find?_ensure_of_find? {k : Scalar} {v : Value} {ms : Members} (h : Members.find? k ms = some v)
    (name : String) (u : Value) : Members.find? k (ensure name u ms) = some v := by
  rw [ensure]
  split
  · exact h
  · rw [Members.find?_append, h]
    rfl

section Step

variable {ms : Members} {k : Scalar} {c : Value} {p : Path}

/-- Where one keyword of a node is rewritten, everything is found again; what stands at that keyword has to be a part
that normalization comes to. -/
theorem exists_find?_rewritten {word : String} {f : Value → Value}
    (h : k = .str word → NormalizedPart p c (f c)) (hc : Members.find? k ms = some c) :
    ∃ d, Members.find? k (mapAt word f ms) = some d ∧ NormalizedPart p c d := by
  refine ⟨_, by rw [Members.find?_mapAt_eq_map, hc, Option.map_some], ?_⟩
  split
  · next hk => exact h hk
  · exact .same c

/-- On a path that leads through no misfit the properties of a node are an object, and go into normal form. -/
theorem normalizedPart_properties (fits : Fits (.object ms) (.str "properties" :: p))
    (hc : Members.find? (.str "properties") ms = some c) : NormalizedPart p c (normalizedProperties c) := by
  by_cases hobject : ∃ ps, c = .object ps
  · obtain ⟨ps, rfl⟩ := hobject
    refine .fields fun k r v hp hv s hs hmisfit => ?_
    subst hp
    exact fits (.str "properties" :: .scalar k :: s) (by simpa using hs) (.inProperty hc hv hmisfit)
  · exact absurd (.properties hc fun ps h => hobject ⟨ps, h⟩) (fits [.str "properties"] (by simp))

/-- On such a path its items are an object that is not empty, and become what normalization makes of a node. -/
theorem normalizedPart_items (fits : Fits (.object ms) (.str "items" :: p))
    (hc : Members.find? (.str "items") ms = some c) : NormalizedPart p c (normalizedItems c) := by
  by_cases hobject : ∃ ns, ns ≠ [] ∧ c = .object ns
  · obtain ⟨_ | ⟨n, ns⟩, hne, rfl⟩ := hobject
    · exact absurd rfl hne
    · exact .node fun r hr hmisfit => fits (.str "items" :: r) (by simpa using hr) (.inItems hc hmisfit)
  · exact absurd (.items hc fun ns hne h => hobject ⟨ns, hne, h⟩) (fits [.str "items"] (by simp))

theorem normalizedPart_variants (fits : Fits (.object ms) (.str "oneOf" :: p))
    (hc : Members.find? (.str "oneOf") ms = some c) : NormalizedPart p c (normalizedVariants c) := by
  cases c with
  | array xs =>
      refine .variants fun s r v hp hv t ht hmisfit => ?_
      subst hp
      exact fits (.str "oneOf" :: s :: t) (by simpa using ht) (.inVariant hc hv hmisfit)
  | _ => exact .same _

theorem exists_find?_normalize (fits : Fits (.object ms) (.scalar k :: p)) (hc : Members.find? k ms = some c) :
    ∃ ns d, normalize (.object ms) = .object ns ∧ Members.find? k ns = some d ∧ NormalizedPart p c d := by
  have properties : k = .str "properties" → NormalizedPart p c (normalizedProperties c) := by
    rintro rfl
    exact normalizedPart_properties fits hc
  have items : k = .str "items" → NormalizedPart p c (normalizedItems c) := by
    rintro rfl
    exact normalizedPart_items fits hc
  have variants : k = .str "oneOf" → NormalizedPart p c (normalizedVariants c) := by
    rintro rfl
    exact normalizedPart_variants fits hc
  obtain ⟨ns, heq, hcase⟩ := normalize_object ms
  refine ⟨ns, ?_⟩
  -- A keyword that is added comes after all others and hides none of them.
  cases hcase with
  | object _ =>
      obtain ⟨d, hd, hcd⟩ := exists_find?_rewritten properties hc
      exact ⟨d, heq, find?_ensure_of_find? hd _ _, hcd⟩
  | array _ =>
      obtain ⟨d, hd, hcd⟩ := exists_find?_rewritten items hc
      exact ⟨d, heq, find?_ensure_of_find? hd _ _, hcd⟩
  | implied _ _ =>
      obtain ⟨d, hd, hcd⟩ := exists_find?_rewritten properties hc
      exact ⟨d, heq, find?_ensure_of_find? hd _ _, hcd⟩
  | variants _ =>
      obtain ⟨d, hd, hcd⟩ := exists_find?_rewritten variants hc
      exact ⟨d, heq, hd, hcd⟩
  | text => exact ⟨c, heq, find?_ensure_of_find? hc _ _, .same c⟩
  | other => exact ⟨c, heq, hc, .same c⟩

theorem exists_child_normalizedVariants {xs : List Value} {s : Value}
    (fits : ∀ t r v, s :: p = t :: r → (Value.array xs).child t = .ok (some v) → Fits v r)
    (hc : (Value.array xs).child s = .ok (some c)) :
    ∃ d, (normalizedVariants (.array xs)).child s = .ok (some d) ∧ NormalizedPart p c d := by
  obtain ⟨_, _, heq, -⟩ | ⟨_, i, n, heq, rfl, hn, hv⟩ := Value.exists_of_child hc
  · cases heq
  · cases heq
    refine ⟨normalize c, ?_, .node (fits _ p c rfl hc)⟩
    rw [normalizedVariants, normalizeAll_eq_map]
    simp [Value.child, hn, hv]

/-- Along each segment of a path that leads through no misfit, what was found is found again, in normal form if it
is a part that normalization comes to. -/
theorem NormalizedPart.exists_child {s v w : Value} (h : NormalizedPart (s :: p) v w)
    (hc : v.child s = .ok (some c)) : ∃ d, w.child s = .ok (some d) ∧ NormalizedPart p c d := by
  cases h with
  | same => exact ⟨c, hc, .same c⟩
  | node fits =>
      cases v with
      | object ms =>
          obtain ⟨k, rfl, hfind⟩ := Value.exists_of_child_object hc
          obtain ⟨ns, d, heq, hd, hcd⟩ := exists_find?_normalize fits hfind
          exact ⟨d, by rw [heq, Value.child_object, hd], hcd⟩
      | _ =>
          rw [normalize_of_not_isObject (by simp)]
          exact ⟨c, hc, .same c⟩
  | @fields ps fits =>
      obtain ⟨k, rfl, hfind⟩ := Value.exists_of_child_object hc
      rw [normalizedProperties_object, Value.child_object, Members.find?_mapPicked, hfind]
      refine ⟨if isContainer c then normalize c else c, rfl, ?_⟩
      split
      · exact .node (fits k p c rfl hfind)
      · exact .same c
  | variants fits => exact exists_child_normalizedVariants fits hc

end Step

/-- Each part has all that it had. -/
theorem NormalizedPart.extends {q : Path} {v w : Value} (h : NormalizedPart q v w) : Extends v w := by
  cases h with
  | same => exact .refl v
  | node _ =>
      cases v with
      | object ms =>
          obtain ⟨ns, heq, hcase⟩ := normalize_object ms
          rw [heq]
          cases hcase with
          | object _ => exact extends_ensure (by simp) (Members.keys_mapAt _ _ ms) _
          | array _ => exact extends_ensure (by simp) (Members.keys_mapAt _ _ ms) _
          | implied _ _ => exact extends_ensure (by simp) (Members.keys_mapAt _ _ ms) _
          | variants _ => exact .object (by rw [Members.keys_mapAt, List.append_nil]) (by simp)
          | text => exact extends_ensure (by simp) rfl _
          | other => exact .refl _
      | _ =>
          rw [normalize_of_not_isObject (by simp)]
          exact .refl _
  | @fields ps _ =>
      rw [normalizedProperties_object]
      exact .object (by rw [Members.keys_mapPicked, List.append_nil]) (by simp)
  | @variants xs _ =>
      rw [normalizedVariants, normalizeAll_eq_map]
      exact .array (List.length_map _)

/-- Normalization only adds. A path that leads through no misfit leads somewhere afterwards if it did before: to the
same scalar, to a list of the same length, or to an object with all its keys in their order and perhaps a type,
properties or items after them. -/
theorem get_normalize {doc v : Value} {q : Path} (h : doc.get q = .ok v) (fits : ∀ r, r <+: q → ¬ Misfit doc r) :
    ∃ w, (normalize doc).get q = .ok w ∧ Extends v w := by
  obtain ⟨w, hw, hvw⟩ := Value.exists_get_of_step NormalizedPart.exists_child (.node fits) h
  exact ⟨w, hw, hvw.extends⟩

/-- An object node without a type, with an array of described items. -/
def describedRows : Members :=
  [(.str "properties", .object [(.str "rows", .object [(.str "items", .object [(.str "description", .str "row")]),
    (.str "type", .str "array")])])]

/-- No path to the items leads through a misfit, and they have a type after the description then. -/
theorem get_normalize_describedRows :
    ∃ w, (normalize (.object describedRows)).get [.str "properties", .str "rows", .str "items"] = .ok w ∧
      Extends (.object [(.str "description", .str "row")]) w := by
  refine get_normalize rfl fun r hr hmisfit => ?_
  obtain ⟨p, word, v, hq, hget, hv⟩ := hmisfit.exists_get
  have hlast := congrArg List.getLast? hq
  rw [List.getLast?_concat] at hlast
  have hr := (List.mem_inits _ _).mpr hr
  simp only [List.inits, List.map_cons, List.map_nil, List.mem_cons, List.not_mem_nil, or_false] at hr
  rcases hr with rfl | rfl | rfl | rfl
  · cases hlast
  · cases hlast
    cases hget
    simp at hv
  · cases hlast
    simp at hv
  · cases hlast
    cases hget
    exact hv.elim (by simp) fun h => h.2 _ (by simp) rfl

end SchemaForge.Schema
