import Mathlib.Data.List.Perm.Subperm
import Mathlib.Order.Bounds.Defs
import SchemaForge.Editor.Fields
import SchemaForge.Numeric.Numeral
import SchemaForge.Proofs.Answers
import SchemaForge.Proofs.Lists
import SchemaForge.Proofs.Value.Json

/-!
The fields of an object: that the name of a new field is free, and what renaming a field or putting one
after another makes of the members. Among as many names as the object has members, and one more, there is
a free one, so the search for it never runs out.
-/

namespace SchemaForge.Fields

/-! ### Free names -/

theorem fieldName_injective : Function.Injective fieldName := by
  intro m n h
  have hdigits : Numeric.digits m = Numeric.digits n := by
    have htext : "field_" ++ m.repr = "field_" ++ n.repr := by simpa [fieldName] using h
    have hlist := congrArg String.toList htext
    simpa [Numeric.digits] using hlist
  rw [← Numeric.ofDigitChars_digits m, hdigits, Numeric.ofDigitChars_digits]

theorem holds_str (ms : Members) (name : String) :
    (Value.object ms).holds (.str name) = .ok (Members.has (.str name) ms) := rfl

theorem le_freeNumber {taken : Value} :
    ∀ {fuel number n : Nat}, freeNumber taken fuel number = .ok n → number ≤ n := by
  intro fuel
  induction fuel with
  | zero =>
      intro number n h
      cases h
      exact Nat.le_refl _
  | succ fuel ih =>
      intro number n h
      obtain ⟨isTaken, -, h⟩ := bind_eq_ok_iff.mp h
      cases isTaken with
      | true =>
          have hle := ih h
          omega
      | false =>
          cases h
          exact Nat.le_refl _

/-- Of the names that were passed over all are taken, and the number that is found is the first free one or
lies behind all the fuel. -/
theorem freeNumber_object (ms : Members) :
    ∀ fuel number n, freeNumber (.object ms) fuel number = .ok n →
      n ≤ number + fuel ∧
        (∀ i, number ≤ i → i < n → Members.has (.str (fieldName i)) ms = true) ∧
        (n < number + fuel → Members.has (.str (fieldName n)) ms = false) := by
  intro fuel
  induction fuel with
  | zero =>
      intro number n h
      cases h
      exact ⟨Nat.le_refl _, fun i hi hn => by omega, fun hn => by omega⟩
  | succ fuel ih =>
      intro number n h
      rw [freeNumber, holds_str, ok_bind] at h
      split at h
      · next htaken =>
          obtain ⟨hlast, htakens, hfree⟩ := ih (number + 1) n h
          refine ⟨by omega, fun i hi hn => ?_, fun hn => hfree (by omega)⟩
          by_cases heq : i = number
          · rwa [heq]
          · exact htakens i (by omega) hn
      · next hfree =>
          cases h
          exact ⟨by omega, fun i hi hn => by omega, fun _ => Bool.eq_false_iff.mpr hfree⟩

/-- What has elements can be searched for the name of a new field. -/
theorem exists_nextNumber {taken : Value} {xs : List Value} (h : taken.elements = .ok xs)
    (number : Nat) : ∃ n, nextNumber taken number = .ok n := by
  have hholds : ∀ name : String, ∃ b, taken.holds (.str name) = .ok b := by
    intro name
    cases taken with
    | scalar k =>
        cases k with
        | str text => exact ⟨_, rfl⟩
        | _ => cases h
    | array ys => exact ⟨_, rfl⟩
    | object ms => exact ⟨_, rfl⟩
  rw [nextNumber]
  generalize capacity taken + 1 = fuel
  induction fuel generalizing number with
  | zero => exact ⟨number, rfl⟩
  | succ fuel ih =>
      obtain ⟨b, hb⟩ := hholds (fieldName number)
      rw [freeNumber, hb, ok_bind]
      cases b with
      | true => exact ih (number + 1)
      | false => exact ⟨number, rfl⟩

/-- The search for a free name ends at the first number whose name is free. -/
theorem isLeast_nextNumber {ms : Members} {number n : Nat}
    (h : nextNumber (.object ms) number = .ok n) :
    n ≤ number + ms.length ∧
      IsLeast {i | number ≤ i ∧ Members.has (.str (fieldName i)) ms = false} n := by
  have hle : number ≤ n := le_freeNumber h
  obtain ⟨-, htaken, hfree⟩ := freeNumber_object ms _ number n h
  -- All numbers passed over are names of different members, of which there are too few.
  have hsub : (List.range' number (n - number)).map (fun i => Scalar.str (fieldName i)) ⊆
      Members.keys ms := by
    intro k hk
    obtain ⟨i, hi, rfl⟩ := List.mem_map.mp hk
    rw [List.mem_range'_1] at hi
    exact (Members.has_iff ⟨_, rfl⟩).mp (htaken i hi.1 (by omega))
  have hnodup : ((List.range' number (n - number)).map fun i => Scalar.str (fieldName i)).Nodup := by
    refine List.Nodup.map (fun i j hij => ?_) List.nodup_range'
    exact fieldName_injective (Scalar.str.inj hij)
  have hlength := (hnodup.subperm hsub).length_le
  simp only [List.length_map, List.length_range', Members.keys] at hlength
  refine ⟨by omega, ⟨hle, hfree ?_⟩, ?_⟩
  · show n < number + (ms.length + 1)
    omega
  · rintro i ⟨hi, hfreeName⟩
    by_contra hlt
    rw [htaken i hi (by omega)] at hfreeName
    cases hfreeName

/-- The name that is found for a new field of an object is free. -/
theorem has_nextNumber {ms : Members} {number n : Nat}
    (h : nextNumber (.object ms) number = .ok n) :
    number ≤ n ∧ Members.has (.str (fieldName n)) ms = false :=
  (isLeast_nextNumber h).2.1

/-! ### Another name in its place -/

theorem equals_str_iff {k : Scalar} {s : String} :
    (Value.scalar k).equals (.str s) = true ↔ k = .str s := by
  rw [Value.equals_str_iff, Value.scalar.injEq]

theorem same_of_equals {k l : Scalar} (h : (Value.scalar l).equals (.scalar k) = true) :
    l.same k = true := by
  rw [Value.equals, Bool.and_eq_true] at h
  simpa [Value.same] using h.1

/-- Keys that stand for the same one are equal, unless they are no numbers. -/
theorem equals_of_same {k l : Scalar} (h : l.same k = true) (hk : k ≠ .float .nan) :
    (Value.scalar l).equals (.scalar k) = true := by
  have hl : l ≠ .float .nan := by
    rintro rfl
    have hcanonical : Scalar.float .nan = k.canonical := of_decide_eq_true h
    unfold Scalar.canonical at hcanonical
    split at hcanonical
    · cases hcanonical
    · split at hcanonical
      · cases hcanonical
      · exact hk hcanonical.symm
    · exact hk hcanonical.symm
  simpa [Value.equals, Value.same, h] using hl

/-- Members with the name `new` in the place of `old`. -/
def renamed (old new : String) (ms : Members) : Members :=
  ms.map fun m => (if m.1 = .str old then .str new else m.1, m.2)

section Renaming

variable {old new : String} {ms : Members} (hms : (Value.object ms).IsJson)

include hms

theorem nodup_keys_renamed (hnew : .str new ∉ Members.keys ms) :
    (Members.keys (renamed old new ms)).Nodup := by
  obtain ⟨-, unique, -⟩ := Value.isJson_object_iff.mp hms
  have hkeys : Members.keys (renamed old new ms) =
      (Members.keys ms).map fun k => if k = .str old then .str new else k := by
    simp [Members.keys, renamed]
  rw [hkeys]
  exact nodup_map_replace unique hnew _

omit hms in
theorem mem_keys_renamed {n : String} (h : .str n ∈ Members.keys ms) :
    .str (if n = old then new else n) ∈ Members.keys (renamed old new ms) := by
  obtain ⟨m, hm, hkey⟩ := List.mem_map.mp h
  refine List.mem_map.mpr ⟨_, List.mem_map_of_mem hm, ?_⟩
  by_cases hn : n = old
  · simp [hkey, hn]
  · simp [hkey, hn]

theorem isJson_renamed (hnew : .str new ∉ Members.keys ms) :
    (Value.object (renamed old new ms)).IsJson := by
  obtain ⟨text, -, values⟩ := Value.isJson_object_iff.mp hms
  refine .object (fun n hn => ?_) (nodup_keys_renamed hms hnew) fun n hn => ?_
  · obtain ⟨m, hm, rfl⟩ := List.mem_map.mp hn
    dsimp only
    split
    · exact ⟨new, rfl⟩
    · exact text m hm
  · obtain ⟨m, hm, rfl⟩ := List.mem_map.mp hn
    exact values m hm

end Renaming

theorem distinct_renamed {old new : String} {ms : Members} (h : ms.Distinct)
    (hnew : Members.has (.str new) ms = false) : (renamed old new ms).Distinct := by
  have hfree := Members.has_eq_false_iff.mp hnew
  refine List.pairwise_map.mpr (h.imp_of_mem fun {m n} hm hn hmn => ?_)
  by_cases hold : m.1 = .str old
  · -- The old name stands for one member alone.
    have hn' : n.1 ≠ .str old := by
      rintro hkey
      simp [hold, hkey] at hmn
    rw [if_pos hold, if_neg hn', Scalar.same_comm]
    exact hfree n hn
  · rw [if_neg hold]
    split
    · exact hfree m hm
    · exact hmn

/-- Fields after one of them was renamed: the new name stands in the place of the old one, and a field that had
it is gone. -/
def renamedFields (old new : String) (ms : Members) : Members :=
  renamed old new (ms.filter (·.1 ≠ .str new))

theorem renamedFields_of_not_mem {old new : String} {ms : Members} (h : .str new ∉ Members.keys ms) :
    renamedFields old new ms = renamed old new ms := by
  have hfilter : ms.filter (·.1 ≠ .str new) = ms := by
    refine List.filter_eq_self.mpr fun m hm => ?_
    have hne : m.1 ≠ .str new := fun hkey => h (hkey ▸ List.mem_map_of_mem hm)
    simpa using hne
  rw [renamedFields, hfilter]

theorem distinct_renamedFields {ms : Members} (h : ms.Distinct) (old new : String) :
    (renamedFields old new ms).Distinct := by
  refine distinct_renamed (h.sublist List.filter_sublist) (Members.has_eq_false_iff.mpr fun m hm => ?_)
  rw [← Bool.not_eq_true, Scalar.same_str_iff]
  simpa using (List.mem_filter.mp hm).2

theorem renameKey_eq {old new : String} {ms : Members} (h : ms.Distinct) :
    renameKey (.str old) (.str new) ms = renamedFields old new ms := by
  have hfilter : (ms.filter fun m => !(Value.scalar m.1).equals (.scalar (.str new))) =
      ms.filter (·.1 ≠ .str new) := by
    refine List.filter_congr fun m _ => ?_
    have hequals : (Value.scalar m.1).equals (.str new) = decide (m.1 = .str new) := by
      rw [Bool.eq_iff_iff, decide_eq_true_iff]
      exact equals_str_iff
    rw [hequals, decide_not]
  have hmap : ∀ ns : Members, (ns.map fun m =>
      (if (Value.scalar m.1).equals (.str old) then Scalar.str new else m.1, m.2)) =
        renamed old new ns := by
    intro ns
    simp only [renamed, equals_str_iff]
  rw [renameKey, hfilter, hmap, ← renamedFields,
    Members.ofPairs_of_distinct (distinct_renamedFields h old new)]

/-- Whatever the names are, renaming gives the members that are left no other values. -/
theorem mem_renameKey {old : Value} {k : Scalar} {ms : Members} {m : Scalar × Value}
    (h : m ∈ renameKey old k ms) : (m.1 = k ∨ m.1 ∈ Members.keys ms) ∧ ∃ n ∈ ms, m.2 = n.2 := by
  obtain ⟨hkey, hvalue⟩ := Members.mem_ofPairs h
  obtain ⟨p, hp, hkey⟩ := List.mem_map.mp hkey
  obtain ⟨q, hq, hvalue⟩ := List.mem_map.mp hvalue
  obtain ⟨a, ha, rfl⟩ := List.mem_map.mp hp
  obtain ⟨b, hb, rfl⟩ := List.mem_map.mp hq
  refine ⟨?_, b, List.mem_of_mem_filter hb, hvalue.symm⟩
  rw [← hkey]
  dsimp only
  split
  · exact .inl rfl
  · exact .inr (List.mem_map_of_mem (List.mem_of_mem_filter ha))

/-- A field may be renamed to whatever may be a key. -/
theorem hereditary_renameKey {K : Scalar → Prop} {P : Value → Prop} (hP : Value.Hereditary K P) {old : Value}
    {k : Scalar} {ms : Members} (hms : P (.object ms)) (hk : K k) : P (.object (renameKey old k ms)) := by
  obtain ⟨ofKey, -, values⟩ := (hP.object_iff ms).mp hms
  refine hP.ofPairs (fun m hm => ?_) fun p hp => ?_
  · rcases (mem_renameKey hm).1 with hkey | hkey
    · exact hkey ▸ hk
    · obtain ⟨n, hn, hkey⟩ := List.mem_map.mp hkey
      exact hkey ▸ ofKey n hn
  · obtain ⟨m, hm, rfl⟩ := List.mem_map.mp hp
    exact values m (List.mem_of_mem_filter hm)

/-! ### A field after another -/

section Insertion

variable {after name : String} {v : Value} {ms : Members}

theorem mem_insertAfter {after : Value} {k : Scalar} {m : Scalar × Value}
    (h : m ∈ insertAfter after k v ms) : m = (k, v) ∨ m ∈ ms := by
  obtain ⟨n, hn, hm⟩ := List.mem_flatMap.mp h
  split at hm
  · rcases List.mem_cons.mp hm with rfl | hm
    · exact .inr hn
    · exact .inl (List.mem_singleton.mp hm)
  · exact .inr (List.mem_singleton.mp hm ▸ hn)

/-- Another key leads to what it led to before. -/
theorem find?_insertAfter {after : Value} {k l : Scalar} (h : k.same l = false) :
    Members.find? l (insertAfter after k v ms) = Members.find? l ms := by
  induction ms with
  | nil => rfl
  | cons m ms ih =>
      rw [insertAfter, List.flatMap_cons, ← insertAfter]
      split <;> simp [Members.find?, h, ih]

theorem keys_insertAfter_subset :
    Members.keys ms ⊆ Members.keys (insertAfter (.str after) (.str name) v ms) := by
  intro k hk
  obtain ⟨m, hm, rfl⟩ := List.mem_map.mp hk
  refine List.mem_map_of_mem (List.mem_flatMap.mpr ⟨m, hm, ?_⟩)
  split <;> simp

theorem mem_insertAfter_self {after : Value} {k : Scalar} {m : Scalar × Value} (hm : m ∈ ms)
    (hequals : (Value.scalar m.1).equals after = true) : (k, v) ∈ insertAfter after k v ms := by
  refine List.mem_flatMap.mpr ⟨m, hm, ?_⟩
  rw [if_pos hequals]
  simp

theorem mem_keys_insertAfter (h : .str after ∈ Members.keys ms) :
    .str name ∈ Members.keys (insertAfter (.str after) (.str name) v ms) := by
  obtain ⟨m, hm, hkey⟩ := List.mem_map.mp h
  have hmem : (Scalar.str name, v) ∈ insertAfter (.str after) (.str name) v ms :=
    mem_insertAfter_self hm (equals_str_iff.mpr hkey)
  exact List.mem_map_of_mem hmem

/-- Below the one member with the key `after` there is room for one new name. -/
theorem distinct_insertAfter {after : Value} {k : Scalar} (distinct : ms.Distinct)
    (hnew : Members.has k ms = false) : (insertAfter after k v ms).Distinct := by
  have hother := Members.has_eq_false_iff.mp hnew
  have hmember : ∀ m x, x ∈ (if (Value.scalar m.1).equals after then [m, (k, v)] else [m]) →
      x = m ∨ (x = (k, v) ∧ (Value.scalar m.1).equals after = true) := by
    intro m x hx
    split at hx
    · next hequals =>
        rcases List.mem_cons.mp hx with rfl | hx
        · exact .inl rfl
        · exact .inr ⟨List.mem_singleton.mp hx, hequals⟩
    · exact .inl (List.mem_singleton.mp hx)
  refine List.pairwise_flatMap.mpr ⟨fun m hm => ?_, distinct.imp_of_mem fun {m n} hm hn hmn x hx y hy => ?_⟩
  · split
    · simpa using hother m hm
    · exact List.pairwise_singleton _ _
  · rcases hmember m x hx with rfl | ⟨rfl, hequals⟩ <;> rcases hmember n y hy with rfl | ⟨rfl, hequals'⟩
    · exact hmn
    · exact hother _ hm
    · rw [Scalar.same_comm]
      exact hother _ hn
    · -- Two members with the key `after` would have the same key.
      cases after with
      | scalar l =>
          have hsame := Scalar.same_trans (same_of_equals hequals)
            ((Scalar.same_comm l n.1).trans (same_of_equals hequals'))
          rw [hmn] at hsame
          cases hsame
      | _ => simp [Value.equals, Value.same] at hequals

theorem hereditary_insertAfter {K : Scalar → Prop} {P : Value → Prop} (hP : Value.Hereditary K P)
    {after : Value} {k : Scalar} (hms : P (.object ms)) (hv : P v) (hk : K k)
    (hnew : Members.has k ms = false) : P (.object (insertAfter after k v ms)) := by
  obtain ⟨ofKey, distinct, values⟩ := (hP.object_iff ms).mp hms
  refine (hP.object_iff _).mpr ⟨fun m hm => ?_, distinct_insertAfter distinct hnew, fun m hm => ?_⟩
  · rcases mem_insertAfter hm with rfl | hm
    · exact hk
    · exact ofKey m hm
  · rcases mem_insertAfter hm with rfl | hm
    · exact hv
    · exact values m hm

end Insertion

/-! ### A new field -/

/-- Fields with a new one of a given name: after the field with the key `after`, or at the end. -/
def grown (after : Value) (name : String) (fields : Members) : Members :=
  if after = .null then Members.insert (.str name) Schema.stringNode fields
  else insertAfter after (.str name) Schema.stringNode fields

section Growth

variable {after : Value} {name : String} {fields : Members}

/-- The new field is among the others. -/
theorem has_grown (place : after = .null ∨ ∃ m ∈ fields, (Value.scalar m.1).equals after = true) :
    Members.has (.str name) (grown after name fields) = true := by
  unfold grown
  split
  · rw [Members.has, Members.find?_insert_self]
    rfl
  · next hsome =>
      obtain ⟨m, hm, hequals⟩ := place.resolve_left hsome
      have hmem : (Scalar.str name, Schema.stringNode) ∈
          insertAfter after (.str name) Schema.stringNode fields := mem_insertAfter_self hm hequals
      exact (Members.has_iff ⟨_, rfl⟩).mpr (List.mem_map_of_mem hmem)

/-- Without the new field the others are as they were. -/
theorem erase_grown (free : Members.has (.str name) fields = false) :
    Members.erase (.str name) (grown after name fields) = fields := by
  unfold grown
  split
  · rw [Members.insert_of_not_has free, Members.erase_append, Members.erase_of_not_has free]
    simp [Members.erase]
  · have hfree := Members.has_eq_false_iff.mp free
    -- Member by member: each is kept, and what was put behind it is taken out.
    rw [insertAfter, Members.erase, List.filter_flatMap]
    have hself : ∀ m ∈ fields, ((if (Value.scalar m.1).equals after then
        [m, (.str name, Schema.stringNode)] else [m]).filter fun n => !n.1.same (.str name)) = [m] := by
      intro m hm
      have hother := hfree m hm
      split <;> simp [hother]
    rw [List.flatMap_congr hself, List.flatMap_singleton']

end Growth

end SchemaForge.Fields
