import SchemaForge.Proofs.Answers
import SchemaForge.Proofs.Value.DistinctKeys
import SchemaForge.Value.Shape

/-!
The values that JSON text can denote: every object in them has texts as keys, and each key once.
-/

namespace SchemaForge

namespace Value

/-- A value in which the keys of each object are texts that occur once. -/
inductive IsJson : Value → Prop where
  | scalar (s : Scalar) : IsJson (.scalar s)
  | array {xs : List Value} (elements : ∀ x ∈ xs, IsJson x) : IsJson (.array xs)
  | object {ms : Members} (text : ∀ m ∈ ms, m.1.IsText) (unique : (Members.keys ms).Nodup)
      (values : ∀ m ∈ ms, IsJson m.2) : IsJson (.object ms)

@[simp] theorem isJson_scalar (s : Scalar) : (Value.scalar s).IsJson := .scalar s

theorem isJson_empty : (Value.object []).IsJson :=
  .object (by simp) (by simp [Members.keys]) (by simp)

@[simp] theorem isJson_array_iff {xs : List Value} : (Value.array xs).IsJson ↔ ∀ x ∈ xs, x.IsJson := by
  constructor
  · intro h
    cases h with
    | array elements => exact elements
  · exact .array

@[simp] theorem isJson_object_iff {ms : Members} :
    (Value.object ms).IsJson ↔
      (∀ m ∈ ms, m.1.IsText) ∧ (Members.keys ms).Nodup ∧ ∀ m ∈ ms, m.2.IsJson := by
  constructor
  · intro h
    cases h with
    | object text unique values => exact ⟨text, unique, values⟩
  · rintro ⟨text, unique, values⟩
    exact .object text unique values

/-! ### Hereditary properties -/

/-- A property that depends on the parts of a value alone: a scalar has it if it may be a key, an array if its
elements have it, and an object if its keys may be keys, are different, and its values have it. Any text may be
a key. -/
structure Hereditary (K : Scalar → Prop) (P : Value → Prop) : Prop where
  key (s : String) : K (.str s)
  scalar {k : Scalar} (hk : K k) : P (.scalar k)
  array_iff (xs : List Value) : P (.array xs) ↔ ∀ x ∈ xs, P x
  object_iff (ms : Members) : P (.object ms) ↔ (∀ m ∈ ms, K m.1) ∧ ms.Distinct ∧ ∀ m ∈ ms, P m.2

theorem hereditary_isJson : Hereditary Scalar.IsText IsJson where
  key := Scalar.isText_str
  scalar _ := .scalar _
  array_iff _ := isJson_array_iff
  object_iff ms := by
    rw [isJson_object_iff]
    constructor
    · rintro ⟨text, unique, values⟩
      exact ⟨text, Members.distinct_of_text text unique, values⟩
    · rintro ⟨text, distinct, values⟩
      exact ⟨text, distinct.nodup, values⟩

end Value

namespace Members

/-- What is found in an object of texts stands at the key itself, which is a text. -/
theorem mem_of_find?_of_text {k : Scalar} {v : Value} {ms : Members} (ht : ∀ m ∈ ms, m.1.IsText)
    (h : find? k ms = some v) : k.IsText ∧ (k, v) ∈ ms := by
  induction ms with
  | nil => simp at h
  | cons m ms ih =>
      obtain ⟨l, w⟩ := m
      by_cases hl : l.same k
      · have hlt : l.IsText := ht _ List.mem_cons_self
        have hkl : k = l := by
          rwa [Scalar.same_comm, Scalar.same_iff_of_isText hlt] at hl
        simp only [find?, hl, if_true, Option.some.injEq] at h
        exact ⟨hkl ▸ hlt, by simp [hkl, h]⟩
      · simp only [find?, hl, Bool.false_eq_true, if_false] at h
        obtain ⟨hk, hm⟩ := ih (fun m hm => ht m (List.mem_cons_of_mem _ hm)) h
        exact ⟨hk, List.mem_cons_of_mem _ hm⟩

end Members

namespace Value.Hereditary

open Members (find? insert keys)

variable {K : Scalar → Prop} {P : Value → Prop} (hP : Hereditary K P)

include hP

theorem text (s : String) : P (.str s) := hP.scalar (hP.key s)

theorem key_of_isText {k : Scalar} (hk : k.IsText) : K k := by
  obtain ⟨s, rfl⟩ := hk
  exact hP.key s

theorem empty : P (.object []) :=
  (hP.object_iff []).mpr ⟨by simp, List.Pairwise.nil, by simp⟩

theorem of_find? {k : Scalar} {v : Value} {ms : Members} (hms : P (.object ms))
    (h : find? k ms = some v) : P v := by
  obtain ⟨-, -, values⟩ := (hP.object_iff ms).mp hms
  obtain ⟨l, hl, -⟩ := Members.exists_mem_of_find? h
  exact values _ hl

/-- A member may be written if its key may be one or is there already. -/
theorem insert {k : Scalar} {v : Value} {ms : Members} (hms : P (.object ms))
    (hk : K k ∨ Members.has k ms = true) (hv : P v) : P (.object (Members.insert k v ms)) := by
  obtain ⟨ofKey, distinct, values⟩ := (hP.object_iff ms).mp hms
  have old : ∀ l ∈ keys ms, K l := fun l hl => by
    obtain ⟨m, hm, rfl⟩ := List.mem_map.mp hl
    exact ofKey m hm
  refine (hP.object_iff _).mpr ⟨fun m hm => ?_, distinct.insert k v, fun m hm => ?_⟩
  · rcases hk with hk | hhas
    · rcases Members.key_of_mem_insert hm with hkey | hkey
      · exact hkey ▸ hk
      · exact old _ hkey
    · exact old _ (Members.keys_insert_of_has hhas ▸ List.mem_map_of_mem hm)
  · rcases Members.mem_of_mem_insert hm with hvalue | hm
    · exact hvalue ▸ hv
    · exact values m hm

/-- A new member with a text as its key may be put at the end. -/
theorem append {word : String} {v : Value} {ms : Members} (hms : P (.object ms))
    (hnew : Members.has (.str word) ms = false) (hv : P v) : P (.object (ms ++ [(.str word, v)])) := by
  rw [← Members.insert_of_not_has hnew]
  exact hP.insert hms (.inl (hP.key word)) hv

theorem of_sublist {ms ns : Members} (hms : P (.object ms)) (h : ns.Sublist ms) : P (.object ns) := by
  obtain ⟨ofKey, distinct, values⟩ := (hP.object_iff ms).mp hms
  exact (hP.object_iff ns).mpr ⟨fun m hm => ofKey m (h.subset hm), distinct.sublist h,
    fun m hm => values m (h.subset hm)⟩

/-- Members that are written one after the other give an object. -/
theorem ofPairs {ps : List (Scalar × Value)} (ofKey : ∀ m ∈ Members.ofPairs ps, K m.1)
    (values : ∀ p ∈ ps, P p.2) : P (.object (Members.ofPairs ps)) := by
  refine (hP.object_iff _).mpr ⟨ofKey, Members.distinct_ofPairs ps, fun m hm => ?_⟩
  obtain ⟨p, hp, hvalue⟩ := List.mem_map.mp (Members.mem_ofPairs hm).2
  exact hvalue ▸ values p hp

theorem of_elements {v : Value} {xs : List Value} (hv : P v) (h : v.elements = .ok xs) :
    ∀ x ∈ xs, P x := by
  intro x hx
  cases v with
  | scalar s =>
      cases s with
      | str s =>
          cases h
          obtain ⟨c, -, rfl⟩ := List.mem_map.mp hx
          exact hP.text _
      | _ => cases h
  | array ys =>
      cases h
      exact (hP.array_iff xs).mp hv x hx
  | object ms =>
      cases h
      obtain ⟨m, hm, rfl⟩ := List.mem_map.mp hx
      exact hP.scalar (((hP.object_iff ms).mp hv).1 m hm)

/-- The two parts of a pair have the property; the first is a key. -/
theorem of_pair {v : Value} {i : Nat} {p : Scalar × Value} (hv : P v) (h : v.pair i = .ok p) :
    P (.scalar p.1) ∧ P p.2 := by
  unfold pair at h
  split at h
  · next k w hpair =>
      obtain ⟨key, hkey, h⟩ := bind_eq_ok_iff.mp h
      cases h
      have parts := hP.of_elements hv hpair
      refine ⟨?_, parts w (by simp)⟩
      cases k with
      | scalar l =>
          cases hkey
          exact parts _ List.mem_cons_self
      | _ => cases hkey
  · cases h
  · cases h

/-- What is taken for an object has the property if its keys may be keys. -/
theorem of_toMembers {v : Value} {ms : Members} (hv : P v) (h : v.toMembers = .ok ms)
    (ofKey : ∀ m ∈ ms, K m.1) : P (.object ms) := by
  unfold toMembers at h
  split at h
  · cases h
    exact hv
  · obtain ⟨xs, hxs, h⟩ := bind_eq_ok_iff.mp h
    obtain ⟨ps, hps, h⟩ := bind_eq_ok_iff.mp h
    cases h
    refine hP.ofPairs ofKey fun p hp => ?_
    obtain ⟨⟨x, i⟩, hx, hpair⟩ := exists_of_mem_mapM hps p hp
    exact (hP.of_pair (hP.of_elements hv hxs x (List.fst_mem_of_mem_zipIdx hx)) hpair).2

/-- The keys of what is taken for an object stood among the parts, where any scalar may be a key. -/
theorem key_of_toMembers (scalar_iff : ∀ k, P (.scalar k) → K k) {v : Value} {ms : Members} (hv : P v)
    (h : v.toMembers = .ok ms) : ∀ m ∈ ms, K m.1 := by
  intro m hm
  unfold toMembers at h
  split at h
  · cases h
    exact ((hP.object_iff ms).mp hv).1 m hm
  · obtain ⟨xs, hxs, h⟩ := bind_eq_ok_iff.mp h
    obtain ⟨ps, hps, h⟩ := bind_eq_ok_iff.mp h
    cases h
    obtain ⟨p, hp, hkey⟩ := List.mem_map.mp (Members.mem_ofPairs hm).1
    obtain ⟨⟨x, i⟩, hx, hpair⟩ := exists_of_mem_mapM hps p hp
    exact hkey ▸ scalar_iff _
      (hP.of_pair (hP.of_elements hv hxs x (List.fst_mem_of_mem_zipIdx hx)) hpair).1

end Value.Hereditary

namespace Members

theorem isJson_of_find? {k : Scalar} {v : Value} {ms : Members} (hms : (Value.object ms).IsJson)
    (h : find? k ms = some v) : v.IsJson :=
  Value.hereditary_isJson.of_find? hms h

/-- A member with a text as its key keeps an object one that JSON has a form for. -/
theorem isJson_insert {k : Scalar} {v : Value} {ms : Members} (hms : (Value.object ms).IsJson)
    (hk : k.IsText) (hv : v.IsJson) : (Value.object (insert k v ms)).IsJson :=
  Value.hereditary_isJson.insert hms (.inl hk) hv

/-- Some of the members of an object that JSON has a form for. -/
theorem isJson_of_sublist {ms ns : Members} (hms : (Value.object ms).IsJson) (h : ns.Sublist ms) :
    (Value.object ns).IsJson :=
  Value.hereditary_isJson.of_sublist hms h

theorem distinct_of_isJson {ms : Members} (hms : (Value.object ms).IsJson) : ms.Distinct := by
  obtain ⟨text, unique, -⟩ := Value.isJson_object_iff.mp hms
  exact distinct_of_text text unique

end Members

namespace Value

/-- A property of a value and of what stands right in it. -/
structure WithParts (P : Value → Prop) (v : Value) : Prop where
  self : P v
  members : ∀ ms, v = .object ms → ∀ m ∈ ms, P m.2
  elements : ∀ xs, v = .array xs → ∀ x ∈ xs, P x

section Parts

variable {P : Value → Prop}

mutual

theorem withParts (other : ∀ v, (∀ ms, v ≠ .object ms) → P v)
    (node : ∀ ms, (∀ m ∈ ms, m.2.WithParts P) → P (.object ms)) : ∀ v : Value, v.WithParts P
  | .scalar s => ⟨other _ (by simp), by simp, by simp⟩
  | .array xs =>
      have hxs := withParts_elements other node xs
      ⟨other _ (by simp), by simp, fun _ heq x hx => (hxs x (Value.array.inj heq ▸ hx)).self⟩
  | .object ms =>
      have hms := withParts_members other node ms
      ⟨node ms hms, fun _ heq m hm => (hms m (Value.object.inj heq ▸ hm)).self, by simp⟩

theorem withParts_elements (other : ∀ v, (∀ ms, v ≠ .object ms) → P v)
    (node : ∀ ms, (∀ m ∈ ms, m.2.WithParts P) → P (.object ms)) :
    ∀ (xs : List Value), ∀ x ∈ xs, x.WithParts P
  | [], _, hx => absurd hx List.not_mem_nil
  | x :: xs, y, hy =>
      (List.mem_cons.mp hy).elim (fun h => h ▸ withParts other node x)
        (withParts_elements other node xs y)

theorem withParts_members (other : ∀ v, (∀ ms, v ≠ .object ms) → P v)
    (node : ∀ ms, (∀ m ∈ ms, m.2.WithParts P) → P (.object ms)) :
    ∀ (ms : List (Scalar × Value)), ∀ m ∈ ms, m.2.WithParts P
  | [], _, hm => absurd hm List.not_mem_nil
  | (_, v) :: ms, n, hn =>
      (List.mem_cons.mp hn).elim (fun h => h ▸ withParts other node v)
        (withParts_members other node ms n)

end

/-- Induction on any value, where a step for an object may use its members together with their parts. -/
theorem part_induction (other : ∀ v, (∀ ms, v ≠ .object ms) → P v)
    (node : ∀ ms, (∀ m ∈ ms, m.2.WithParts P) → P (.object ms)) (v : Value) : P v :=
  (withParts other node v).self

end Parts

/-- Induction from keyword to keyword. The nodes right below a node stand two levels down if they are
properties or variants, so a step may use the values at the keywords together with their parts. -/
theorem IsJson.keyword_induction {P : Value → Prop}
    (other : ∀ v, v.IsJson → (∀ ms, v ≠ .object ms) → P v)
    (node : ∀ ms, (Value.object ms).IsJson →
      (∀ w v, Members.find? (.str w) ms = some v → v.WithParts P) → P (.object ms))
    {v : Value} (h : v.IsJson) : P v := by
  suffices hall : v.WithParts P from hall.self
  induction h with
  | scalar s => exact ⟨other _ (.scalar s) (by simp), by simp, by simp⟩
  | @array xs elements ih =>
      refine ⟨other _ (.array elements) (by simp), by simp, fun ys heq x hx => ?_⟩
      cases heq
      exact (ih x hx).self
  | @object ms text unique values ih =>
      refine ⟨node ms (.object text unique values) fun w v hv => ?_, fun ns heq m hm => ?_,
        by simp⟩
      · exact ih _ (Members.mem_of_find?_of_text text hv).2
      · cases heq
        exact (ih m hm).self

end Value

end SchemaForge
