import SchemaForge.Value.Basic

/-!
Members of an object by key: look-up, insertion at the place of an equal key or else at the end, removal.
Keys are compared by what they stand for, so an object never gains a second member for the key `1` by
being given `true` or `1.0`.
-/

namespace SchemaForge.Members

def find? (k : Scalar) : Members → Option Value
  | [] => none
  | (l, v) :: ms => if l.same k then some v else find? k ms

def has (k : Scalar) (ms : Members) : Bool := (find? k ms).isSome

/-- Writes a value at a key. A key that is there keeps its place and its form. -/
def insert (k : Scalar) (v : Value) : Members → Members
  | [] => [(k, v)]
  | (l, w) :: ms => if l.same k then (l, v) :: ms else (l, w) :: insert k v ms

def erase (k : Scalar) (ms : Members) : Members := ms.filter fun m => !m.1.same k

def keys (ms : Members) : List Scalar := ms.map (·.1)

/-- Members written one after the other, so that a later value for a key takes the place of an earlier
one. -/
def ofPairs (ps : List (Scalar × Value)) : Members :=
  ps.foldl (fun ms p => insert p.1 p.2 ms) []

/-! ### Reading what was written -/

@[simp] theorem find?_nil (k : Scalar) : find? k [] = none := rfl

theorem find?_insert_self (k : Scalar) (v : Value) (ms : Members) :
    find? k (insert k v ms) = some v := by
  induction ms with
  | nil => simp [insert, find?]
  | cons m ms ih =>
      obtain ⟨l, w⟩ := m
      by_cases h : l.same k <;> simp [insert, find?, h, ih]

/-- Two keys that stand for the same one are told apart from a third one alike. -/
theorem same_eq_false_of_same {k l m : Scalar} (hm : m.same k = true) (h : k.same l = false) :
    m.same l = false := by
  simp_all [Scalar.same]

theorem find?_insert_of_not_same {k l : Scalar} (h : k.same l = false) (v : Value) (ms : Members) :
    find? l (insert k v ms) = find? l ms := by
  induction ms with
  | nil => simp [insert, find?, h]
  | cons m ms ih =>
      obtain ⟨n, w⟩ := m
      by_cases hn : n.same k
      · simp [insert, find?, hn, same_eq_false_of_same hn h]
      · simp only [insert, hn, find?, Bool.false_eq_true, ↓reduceIte]
        rw [ih]

theorem find?_erase_self (k : Scalar) (ms : Members) : find? k (erase k ms) = none := by
  induction ms with
  | nil => rfl
  | cons m ms ih =>
      obtain ⟨l, w⟩ := m
      by_cases h : l.same k <;> simp_all [erase, find?]

/-! ### Writing twice -/

theorem insert_insert (k : Scalar) (v w : Value) (ms : Members) :
    insert k w (insert k v ms) = insert k w ms := by
  induction ms with
  | nil => simp [insert]
  | cons m ms ih =>
      obtain ⟨l, u⟩ := m
      by_cases h : l.same k <;> simp [insert, h, ih]

/-- Writing the value that a key has already changes nothing. -/
theorem insert_of_find? {k : Scalar} {v : Value} {ms : Members} (h : find? k ms = some v) :
    insert k v ms = ms := by
  induction ms with
  | nil => simp at h
  | cons m ms ih =>
      obtain ⟨l, w⟩ := m
      by_cases hl : l.same k
      · simp_all [insert, find?]
      · simp_all [insert, find?]

/-- Values are written at two different keys in either order if one of the keys is there already. -/
theorem insert_comm {k l : Scalar} (h : k.same l = false) (v w : Value) {ms : Members}
    (hk : has k ms = true) : insert l w (insert k v ms) = insert k v (insert l w ms) := by
  induction ms with
  | nil => simp [has] at hk
  | cons m ms ih =>
      obtain ⟨n, u⟩ := m
      by_cases hnk : n.same k = true
      · have hnl : n.same l = false := same_eq_false_of_same hnk h
        simp [insert, hnk, hnl]
      · by_cases hnl : n.same l = true
        · simp [insert, hnk, hnl]
        · simp only [has, find?, hnk, Bool.false_eq_true, ↓reduceIte] at hk
          simp [insert, hnk, hnl, ih hk]

/-- A key that is there keeps all keys as they are. -/
theorem keys_insert_of_has {k : Scalar} {v : Value} {ms : Members} (h : has k ms = true) :
    keys (insert k v ms) = keys ms := by
  induction ms with
  | nil => simp [has] at h
  | cons m ms ih =>
      obtain ⟨l, w⟩ := m
      by_cases hl : l.same k
      · simp [insert, keys, hl]
      · simp_all [insert, keys, has, find?]

/-- A new key goes to the end. -/
theorem insert_of_not_has {k : Scalar} {v : Value} {ms : Members} (h : has k ms = false) :
    insert k v ms = ms ++ [(k, v)] := by
  induction ms with
  | nil => rfl
  | cons m ms ih =>
      obtain ⟨l, w⟩ := m
      by_cases hl : l.same k
      · simp [has, find?, hl] at h
      · simp_all [insert, has, find?]

end SchemaForge.Members
