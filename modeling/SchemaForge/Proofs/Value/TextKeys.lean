import Mathlib.Data.List.Induction
import Mathlib.Data.List.Nodup
import SchemaForge.Value.Members

/-!
Objects whose keys are texts. A key that is a text stands for itself alone, so looking up and writing
at such keys obey the laws of a finite map, and the keys of an object that has each of them once
determine what is found.
-/

namespace SchemaForge

/-- Whether a key is a text. -/
def Scalar.IsText (k : Scalar) : Prop := ∃ s, k = .str s

@[simp] theorem Scalar.isText_str (s : String) : (Scalar.str s).IsText := ⟨s, rfl⟩

theorem Scalar.same_iff_of_isText {k : Scalar} (hk : k.IsText) (l : Scalar) :
    l.same k = true ↔ l = k := by
  obtain ⟨s, rfl⟩ := hk
  exact same_str_iff l s

theorem Scalar.same_eq_false_of_ne {k l : Scalar} (hk : k.IsText) (h : l ≠ k) :
    l.same k = false := by
  rwa [← Bool.not_eq_true, same_iff_of_isText hk]

theorem Scalar.str_same_eq_false_of_ne {s : String} {k : Scalar} (h : k ≠ .str s) :
    (Scalar.str s).same k = false := by
  rw [same_comm]
  exact same_eq_false_of_ne ⟨s, rfl⟩ h

theorem Scalar.exists_map_str {ks : List Scalar} (h : ∀ k ∈ ks, k.IsText) :
    ∃ names : List String, ks = names.map .str := by
  induction ks with
  | nil => exact ⟨[], rfl⟩
  | cons k ks ih =>
      obtain ⟨name, rfl⟩ := h k List.mem_cons_self
      obtain ⟨names, rfl⟩ := ih fun l hl => h l (List.mem_cons_of_mem _ hl)
      exact ⟨name :: names, rfl⟩

namespace Members

/-- Whatever the keys are, what is found stands in the object, at a key that stands for the one looked up. -/
theorem exists_mem_of_find? {k : Scalar} {v : Value} {ms : Members} (h : find? k ms = some v) :
    ∃ l, (l, v) ∈ ms ∧ l.same k = true := by
  induction ms with
  | nil => simp at h
  | cons m ms ih =>
      obtain ⟨l, w⟩ := m
      rw [find?] at h
      split at h
      · next hsame => exact ⟨l, by rw [Option.some.inj h]; exact List.mem_cons_self, hsame⟩
      · obtain ⟨n, hn, hsame⟩ := ih h
        exact ⟨n, List.mem_cons_of_mem _ hn, hsame⟩

/-! ### Looking up a text -/

theorem mem_of_find? {k : Scalar} {v : Value} {ms : Members} (hk : k.IsText)
    (h : find? k ms = some v) : (k, v) ∈ ms := by
  induction ms with
  | nil => simp at h
  | cons m ms ih =>
      obtain ⟨l, w⟩ := m
      by_cases hl : l.same k
      · have hlk : l = k := (Scalar.same_iff_of_isText hk l).mp hl
        simp only [find?, hl, if_true, Option.some.injEq] at h
        rw [hlk, h]
        exact List.mem_cons_self
      · simp only [find?, hl, Bool.false_eq_true, if_false] at h
        exact List.mem_cons_of_mem _ (ih h)

theorem mem_keys_iff {k : Scalar} {ms : Members} : k ∈ keys ms ↔ ∃ v, (k, v) ∈ ms := by
  simp [keys]

theorem find?_eq_none_iff {k : Scalar} {ms : Members} (hk : k.IsText) :
    find? k ms = none ↔ k ∉ keys ms := by
  induction ms with
  | nil => simp [keys]
  | cons m ms ih =>
      obtain ⟨l, w⟩ := m
      by_cases hl : l.same k
      · have hlk : l = k := (Scalar.same_iff_of_isText hk l).mp hl
        simp [find?, keys, hlk]
      · have hlk : k ≠ l := fun h => hl ((Scalar.same_iff_of_isText hk l).mpr h.symm)
        simp only [find?, hl, Bool.false_eq_true, if_false, ih]
        simp [keys, hlk]

theorem has_iff {k : Scalar} {ms : Members} (hk : k.IsText) : has k ms = true ↔ k ∈ keys ms := by
  rw [has, Option.isSome_iff_ne_none, ne_eq, find?_eq_none_iff hk, not_not]

theorem find?_isSome_of_mem {k : Scalar} {ms : Members} (hk : k.IsText) (h : k ∈ keys ms) :
    ∃ v, find? k ms = some v :=
  Option.isSome_iff_exists.mp ((has_iff hk).mpr h)

/-- In an object that has each key once, whatever stands at a key is found there. -/
theorem find?_of_mem {k : Scalar} {v : Value} {ms : Members} (hk : k.IsText)
    (hd : (keys ms).Nodup) (h : (k, v) ∈ ms) : find? k ms = some v := by
  induction ms with
  | nil => simp at h
  | cons m ms ih =>
      obtain ⟨l, w⟩ := m
      obtain ⟨hl, hd⟩ := List.nodup_cons.mp hd
      rcases List.mem_cons.mp h with heq | h
      · cases heq
        simp [find?]
      · have hlk : l ≠ k := fun e => hl (e ▸ mem_keys_iff.mpr ⟨v, h⟩)
        have hsame : l.same k = false := Scalar.same_eq_false_of_ne hk hlk
        simpa [find?, hsame] using ih hd h

/-! ### Writing at a text -/

theorem find?_insert {k l : Scalar} (hl : l.IsText) (v : Value) (ms : Members) :
    find? l (insert k v ms) = if k = l then some v else find? l ms := by
  by_cases h : k = l
  · rw [if_pos h, h, find?_insert_self]
  · rw [if_neg h, find?_insert_of_not_same (Scalar.same_eq_false_of_ne hl h)]

@[simp] theorem find?_insert_str (k l : String) (v : Value) (ms : Members) :
    find? (.str l) (insert (.str k) v ms) = if k = l then some v else find? (.str l) ms := by
  simp [find?_insert]

theorem keys_insert {k : Scalar} (hk : k.IsText) (v : Value) (ms : Members) :
    keys (insert k v ms) = if k ∈ keys ms then keys ms else keys ms ++ [k] := by
  by_cases h : k ∈ keys ms
  · rw [if_pos h, keys_insert_of_has ((has_iff hk).mpr h)]
  · have hn : has k ms = false := by rwa [← Bool.not_eq_true, has_iff hk]
    rw [if_neg h, insert_of_not_has hn]
    simp [keys]

theorem mem_keys_insert {k l : Scalar} {v : Value} {ms : Members} (hk : k.IsText) :
    l ∈ keys (insert k v ms) ↔ l = k ∨ l ∈ keys ms := by
  rw [keys_insert hk]
  split
  · next h =>
      constructor
      · exact Or.inr
      · rintro (rfl | hl)
        · exact h
        · exact hl
  · simp [or_comm]

theorem nodup_keys_insert {k : Scalar} {v : Value} {ms : Members} (hk : k.IsText)
    (h : (keys ms).Nodup) : (keys (insert k v ms)).Nodup := by
  rw [keys_insert hk]
  split
  · exact h
  · next hn =>
      refine List.nodup_append.mpr ⟨h, List.nodup_singleton k, ?_⟩
      intro a ha b hb hab
      exact hn (List.mem_singleton.mp hb ▸ hab ▸ ha)

/-- What stands in an object after writing: the new value at its key, and what stood there before at
other keys. -/
theorem mem_insert {k : Scalar} {v : Value} {ms : Members} {m : Scalar × Value} (hk : k.IsText)
    (hd : (keys ms).Nodup) (h : m ∈ insert k v ms) : m = (k, v) ∨ (m ∈ ms ∧ m.1 ≠ k) := by
  induction ms with
  | nil => simpa [insert] using h
  | cons n ms ih =>
      obtain ⟨l, w⟩ := n
      obtain ⟨hl, hd⟩ := List.nodup_cons.mp hd
      by_cases hlk : l = k
      · subst hlk
        simp only [insert, Scalar.same_self, if_true] at h
        rcases List.mem_cons.mp h with rfl | h
        · exact .inl rfl
        · exact .inr ⟨List.mem_cons_of_mem _ h,
            fun e => hl (e ▸ mem_keys_iff.mpr ⟨m.2, h⟩)⟩
      · have hsame : l.same k = false := Scalar.same_eq_false_of_ne hk hlk
        simp only [insert, hsame, Bool.false_eq_true, if_false] at h
        rcases List.mem_cons.mp h with rfl | h
        · exact .inr ⟨List.mem_cons_self, hlk⟩
        · rcases ih hd h with rfl | ⟨hm, hne⟩
          · exact .inl rfl
          · exact .inr ⟨List.mem_cons_of_mem _ hm, hne⟩

/-- Whatever the keys are, what is new in an object after writing is the value. -/
theorem mem_of_mem_insert {k : Scalar} {v : Value} {ms : Members} {m : Scalar × Value}
    (h : m ∈ insert k v ms) : m.2 = v ∨ m ∈ ms := by
  induction ms with
  | nil => exact .inl (by rw [List.mem_singleton.mp h])
  | cons n ms ih =>
      obtain ⟨l, w⟩ := n
      rw [insert] at h
      split at h
      · rcases List.mem_cons.mp h with rfl | h
        · exact .inl rfl
        · exact .inr (List.mem_cons_of_mem _ h)
      · rcases List.mem_cons.mp h with rfl | h
        · exact .inr List.mem_cons_self
        · exact (ih h).imp id (List.mem_cons_of_mem _)

/-- Whatever the keys are, what is new among them after writing is the key. -/
theorem key_of_mem_insert {k : Scalar} {v : Value} {ms : Members} {m : Scalar × Value}
    (h : m ∈ insert k v ms) : m.1 = k ∨ m.1 ∈ keys ms := by
  induction ms with
  | nil => exact .inl (by rw [List.mem_singleton.mp h])
  | cons n ms ih =>
      obtain ⟨l, w⟩ := n
      rw [insert] at h
      split at h
      · rcases List.mem_cons.mp h with rfl | h
        · exact .inr List.mem_cons_self
        · exact .inr (List.mem_cons_of_mem _ (List.mem_map_of_mem h))
      · rcases List.mem_cons.mp h with rfl | h
        · exact .inr List.mem_cons_self
        · exact (ih h).imp id (List.mem_cons_of_mem _)

/-- Members that are written one after the other have their keys and their values from what is written. -/
theorem mem_ofPairs {ps : List (Scalar × Value)} {m : Scalar × Value} (h : m ∈ ofPairs ps) :
    m.1 ∈ ps.map (·.1) ∧ m.2 ∈ ps.map (·.2) := by
  induction ps using List.reverseRecOn generalizing m with
  | nil => simp [ofPairs] at h
  | append_singleton ps p ih =>
      rw [ofPairs, List.foldl_append, ← ofPairs] at h
      simp only [List.map_append, List.mem_append, List.map_cons, List.map_nil, List.mem_singleton]
      constructor
      · rcases key_of_mem_insert h with hkey | hkey
        · exact .inr hkey
        · obtain ⟨n, hn, hkey⟩ := List.mem_map.mp hkey
          exact .inl (hkey ▸ (ih hn).1)
      · rcases mem_of_mem_insert h with hvalue | hm
        · exact .inr hvalue
        · exact .inl (ih hm).2

/-! ### Removing a text -/

theorem find?_erase_of_not_same {k l : Scalar} (hkl : k.same l = false) (ms : Members) :
    find? l (erase k ms) = find? l ms := by
  induction ms with
  | nil => rfl
  | cons m ms ih =>
      obtain ⟨n, w⟩ := m
      by_cases hn : n.same k
      · have hnl : n.same l = false := same_eq_false_of_same hn hkl
        simpa [erase, find?, hn, hnl] using ih
      · simp only [erase, hn, Bool.not_false, List.filter_cons_of_pos, find?]
        split
        · rfl
        · exact ih

theorem find?_erase_of_ne {k l : Scalar} (hl : l.IsText) (h : k ≠ l) (ms : Members) :
    find? l (erase k ms) = find? l ms :=
  find?_erase_of_not_same (Scalar.same_eq_false_of_ne hl h) ms

theorem keys_filter (P : Scalar → Bool) (ms : Members) :
    keys (ms.filter (P ·.1)) = (keys ms).filter P := by
  rw [keys, keys, List.filter_map]
  rfl

theorem keys_erase (k : Scalar) (ms : Members) : keys (erase k ms) = (keys ms).filter (!·.same k) :=
  keys_filter (!·.same k) ms

theorem keys_erase_sublist (k : Scalar) (ms : Members) : (keys (erase k ms)).Sublist (keys ms) :=
  List.filter_sublist.map _

theorem mem_keys_erase {k l : Scalar} {ms : Members} (h : l ∈ keys (erase k ms)) :
    l ∈ keys ms :=
  (keys_erase_sublist k ms).mem h

theorem mem_keys_erase_iff {k l : Scalar} {ms : Members} (hk : k.IsText) :
    l ∈ keys (erase k ms) ↔ l ≠ k ∧ l ∈ keys ms := by
  simp only [keys, erase, List.mem_map, List.mem_filter]
  constructor
  · rintro ⟨m, ⟨hm, hsame⟩, rfl⟩
    refine ⟨fun h => ?_, m, hm, rfl⟩
    simp [h] at hsame
  · rintro ⟨hne, m, hm, rfl⟩
    exact ⟨m, ⟨hm, by simp [Scalar.same_eq_false_of_ne hk hne]⟩, rfl⟩

theorem nodup_keys_erase {k : Scalar} {ms : Members} (h : (keys ms).Nodup) :
    (keys (erase k ms)).Nodup :=
  h.sublist (keys_erase_sublist k ms)

/-- Writing at a key and removing another one may come in either order. -/
theorem insert_erase {k l : Scalar} (hkl : k.same l = false) (v : Value) (ms : Members) :
    insert k v (erase l ms) = erase l (insert k v ms) := by
  induction ms with
  | nil => simp [erase, insert, hkl]
  | cons m ms ih =>
      obtain ⟨n, w⟩ := m
      by_cases hnk : n.same k = true
      · have hnl : n.same l = false := same_eq_false_of_same hnk hkl
        simp [erase, insert, hnk, hnl]
      · by_cases hnl : n.same l = true
        · simpa [erase, insert, hnk, hnl] using ih
        · simpa [erase, insert, hnk, hnl] using ih

/-! ### Joining -/

theorem find?_append (k : Scalar) (ms ns : Members) :
    find? k (ms ++ ns) = (find? k ms).or (find? k ns) := by
  induction ms with
  | nil => simp
  | cons m ms ih =>
      obtain ⟨l, w⟩ := m
      by_cases h : l.same k <;> simp [find?, h, ih]

theorem erase_append (k : Scalar) (ms ns : Members) : erase k (ms ++ ns) = erase k ms ++ erase k ns :=
  List.filter_append ..

theorem erase_of_not_has {k : Scalar} {ms : Members} (h : has k ms = false) : erase k ms = ms := by
  induction ms with
  | nil => rfl
  | cons m ms ih =>
      obtain ⟨l, w⟩ := m
      by_cases hl : l.same k
      · simp [has, find?, hl] at h
      · have hrest : has k ms = false := by simpa [has, find?, hl] using h
        rw [erase, List.filter_cons_of_pos (by simp [hl]), ← erase, ih hrest]

/-- A key of the first members keeps its place there. -/
theorem insert_append_of_has {k : Scalar} {ms : Members} (h : has k ms = true) (v : Value) (ns : Members) :
    insert k v (ms ++ ns) = insert k v ms ++ ns := by
  induction ms with
  | nil => simp [has] at h
  | cons m ms ih =>
      obtain ⟨l, w⟩ := m
      by_cases hl : l.same k
      · simp [insert, hl]
      · simp_all [insert, has, find?]

@[simp] theorem find?_singleton_str (k l : String) (v : Value) :
    find? (.str l) [(.str k, v)] = if k = l then some v else none := by
  simp [find?, Scalar.same_str_iff]

end Members

end SchemaForge
