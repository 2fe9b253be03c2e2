import SchemaForge.Proofs.Value.TextKeys

/-!
Objects whose keys are different, as those of every object are that is written member by member. No two keys
stand for the same one then, and what stands at a key is found there whether the key is a text or not.
-/

namespace SchemaForge.Members

/-- No two keys stand for the same one, as in every object that was written member by member. -/
def Distinct (ms : Members) : Prop := ms.Pairwise fun m n => m.1.same n.1 = false

instance (ms : Members) : Decidable ms.Distinct := inferInstanceAs (Decidable (List.Pairwise _ _))

theorem distinct_iff_keys {ms : Members} :
    ms.Distinct ↔ (keys ms).Pairwise fun k l => k.same l = false := by
  rw [Distinct, keys, List.pairwise_map]

theorem distinct_of_text {ms : Members} (text : ∀ m ∈ ms, m.1.IsText) (unique : (keys ms).Nodup) :
    ms.Distinct := by
  have hne : ms.Pairwise fun m n => m.1 ≠ n.1 := List.pairwise_map.mp unique
  exact hne.imp_of_mem fun _ hn h => Scalar.same_eq_false_of_ne (text _ hn) h

theorem Distinct.nodup {ms : Members} (h : ms.Distinct) : (keys ms).Nodup :=
  (distinct_iff_keys.mp h).imp fun hkl heq => by simp [heq] at hkl

theorem Distinct.sublist {ms ns : Members} (h : ms.Distinct) (hns : ns.Sublist ms) : ns.Distinct :=
  List.Pairwise.sublist hns h

theorem has_eq_false_iff {k : Scalar} {ms : Members} :
    has k ms = false ↔ ∀ m ∈ ms, m.1.same k = false := by
  induction ms with
  | nil => simp [has]
  | cons m ms ih =>
      obtain ⟨l, v⟩ := m
      by_cases h : l.same k = true
      · simp [has, find?, h]
      · simpa [has, find?, h] using ih

/-- Where keys are different, what stands at a key is found there. -/
theorem Distinct.find? {ms : Members} (h : ms.Distinct) {m : Scalar × Value} (hm : m ∈ ms) {k : Scalar}
    (hk : m.1.same k = true) : Members.find? k ms = some m.2 := by
  induction ms with
  | nil => cases hm
  | cons n ms ih =>
      obtain ⟨hn, hms⟩ := List.pairwise_cons.mp h
      rcases List.mem_cons.mp hm with rfl | hm
      · simp [Members.find?, hk]
      · have hnk : n.1.same k = false := by
          rw [← Bool.not_eq_true]
          intro hnk
          have hnm := Scalar.same_trans hnk ((Scalar.same_comm k m.1).trans hk)
          rw [hn m hm] at hnm
          cases hnm
        simpa [Members.find?, hnk] using ih hms hm

/-! ### Writing -/

/-- A new key goes to the end, and a key that is there stays as it is. -/
theorem Distinct.insert {ms : Members} (h : ms.Distinct) (k : Scalar) (v : Value) :
    (Members.insert k v ms).Distinct := by
  cases hhas : has k ms with
  | true => rwa [distinct_iff_keys, keys_insert_of_has hhas, ← distinct_iff_keys]
  | false =>
      rw [insert_of_not_has hhas]
      refine List.pairwise_append.mpr ⟨h, List.pairwise_singleton _ _, fun m hm n hn => ?_⟩
      rw [List.mem_singleton.mp hn]
      exact has_eq_false_iff.mp hhas m hm

theorem distinct_ofPairs (ps : List (Scalar × Value)) : (ofPairs ps).Distinct := by
  induction ps using List.reverseRecOn with
  | nil => exact List.Pairwise.nil
  | append_singleton ps p ih =>
      rw [ofPairs, List.foldl_append, ← ofPairs]
      exact ih.insert p.1 p.2

/-- Members whose keys are different are kept as they are when written one after the other. -/
theorem ofPairs_of_distinct {ms : Members} (h : ms.Distinct) : ofPairs ms = ms := by
  -- What was written already is a prefix that the rest must not repeat.
  suffices hrest : ∀ written rest : Members, Distinct (written ++ rest) →
      rest.foldl (fun ms p => Members.insert p.1 p.2 ms) written = written ++ rest from hrest [] ms h
  intro written rest
  induction rest generalizing written with
  | nil => simp
  | cons m rest ih =>
      intro hdistinct
      have hnew : has m.1 written = false := has_eq_false_iff.mpr fun n hn =>
        (List.pairwise_append.mp hdistinct).2.2 n hn m List.mem_cons_self
      have hsplit : written ++ m :: rest = (written ++ [m]) ++ rest := by simp
      rw [List.foldl_cons, insert_of_not_has hnew, hsplit]
      rw [hsplit] at hdistinct
      exact ih _ hdistinct

/-- Members that are different texts are kept as they are when written one after the other. -/
theorem ofPairs_eq_self {ms : Members} (text : ∀ m ∈ ms, m.1.IsText) (unique : (keys ms).Nodup) :
    ofPairs ms = ms :=
  ofPairs_of_distinct (distinct_of_text text unique)

end SchemaForge.Members
