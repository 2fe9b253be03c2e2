import SchemaForge.Proofs.Path.Writing

/-!
Writes to separate places. Two paths diverge in a document if they lead into the same container and go on
to different places of it, where indices are compared by the element that they point to. A write leaves
alone whatever a diverging path finds or fails to find, it takes no key from any object outside the place
that it writes to, and two writes along diverging paths may change places.
-/

namespace SchemaForge

namespace Members

/-! ### Keys that stand for the same one -/

theorem find?_congr {k l : Scalar} (h : k.same l = true) (ms : Members) : find? k ms = find? l ms := by
  have hsame : ∀ m : Scalar, m.same k = m.same l := fun m => by
    simp only [Scalar.same, decide_eq_true_eq] at h ⊢
    rw [h]
  induction ms with
  | nil => rfl
  | cons m ms ih => simp only [find?, hsame, ih]

/-- A key that is there keeps its form, so that it does not matter in which form it is written to. -/
theorem insert_congr {k l : Scalar} (h : k.same l = true) (v : Value) {ms : Members}
    (hk : has k ms = true) : insert k v ms = insert l v ms := by
  induction ms with
  | nil => simp [has] at hk
  | cons m ms ih =>
      obtain ⟨n, w⟩ := m
      by_cases hn : n.same k = true
      · simp [insert, hn, Scalar.same_trans hn h]
      · have hl : n.same l = false :=
          Bool.eq_false_iff.mpr fun hl => hn (Scalar.same_trans hl ((Scalar.same_comm l k).trans h))
        simp only [has, find?, hn, Bool.false_eq_true, ↓reduceIte] at hk
        simp only [insert, hn, hl, Bool.false_eq_true, ↓reduceIte, ih hk]

/-- Writing a value takes no key away and keeps the keys in order. -/
theorem keys_prefix_insert (k : Scalar) (v : Value) (ms : Members) : keys ms <+: keys (insert k v ms) := by
  by_cases h : has k ms = true
  · exact ⟨[], by rw [List.append_nil, keys_insert_of_has h]⟩
  · rw [insert_of_not_has (Bool.eq_false_iff.mpr h), keys, keys, List.map_append]
    exact List.prefix_append _ _

end Members

namespace Value

/-! ### Places of a container -/

/-- Where an index points in a list of `n` elements, counted from its start. -/
def fromStart (n : Nat) (i : Int) : Int := if i < 0 then i + n else i

theorem resolveIndex_eq_some_iff {n k : Nat} {i : Int} :
    resolveIndex n i = some k ↔ fromStart n i = k ∧ k < n := by
  unfold resolveIndex fromStart
  grind

/-- The place of a container that a segment stands for: a key is written in the one form that all keys for it
share, and an index counts from the start. Other segments lead nowhere. -/
def place (container segment : Value) : Value :=
  match container, segment with
  | .object _, .scalar k => .scalar k.canonical
  | .array xs, .int i => .int (fromStart xs.length i)
  | _, s => s

section Places

variable {c s t v : Value}

theorem place_object_eq_iff {ms : Members} {k l : Scalar} :
    (Value.object ms).place (.scalar k) = (Value.object ms).place (.scalar l) ↔ k.same l = true := by
  simp [place, Scalar.same]

theorem place_array_eq_iff {xs : List Value} {i j : Int} :
    (Value.array xs).place (.int i) = (Value.array xs).place (.int j) ↔
      fromStart xs.length i = fromStart xs.length j := by
  simp [place]

/-- A segment that stands for the same place as one that leads somewhere is of its kind. -/
theorem exists_of_place_eq (h : c.place s = c.place t) (hs : c.child s = .ok (some v)) :
    (∃ ms k l, c = .object ms ∧ s = .scalar k ∧ t = .scalar l ∧ k.same l = true ∧
      Members.find? k ms = some v) ∨
      ∃ xs i j n, c = .array xs ∧ s = .int i ∧ t = .int j ∧ resolveIndex xs.length i = some n ∧
        resolveIndex xs.length j = some n ∧ xs[n]? = some v := by
  obtain ⟨ms, k, rfl, rfl, hfind⟩ | ⟨xs, i, n, rfl, rfl, hn, hv⟩ := exists_of_child hs
  · cases t with
    | scalar l => exact .inl ⟨ms, k, l, rfl, rfl, rfl, place_object_eq_iff.mp h, hfind⟩
    | array ys => cases h
    | object ns => cases h
  · cases t with
    | scalar l =>
        cases l with
        | int j =>
            obtain ⟨hi, hlt⟩ := resolveIndex_eq_some_iff.mp hn
            have hj : fromStart xs.length j = n := (place_array_eq_iff.mp h).symm.trans hi
            exact .inr ⟨xs, i, j, n, rfl, rfl, rfl, hn, resolveIndex_eq_some_iff.mpr ⟨hj, hlt⟩, hv⟩
        | _ => simp [place] at h
    | array ys => cases h
    | object ns => cases h

/-- Segments for one place lead to the same value. -/
theorem child_of_place_eq (h : c.place s = c.place t) (hs : c.child s = .ok (some v)) :
    c.child t = .ok (some v) := by
  obtain ⟨ms, k, l, rfl, rfl, rfl, hkl, hfind⟩ | ⟨xs, i, j, n, rfl, rfl, rfl, -, hj, hv⟩ :=
    exists_of_place_eq h hs
  · rw [Members.find?_congr hkl] at hfind
    simp [child, hfind]
  · simp [child, hj, hv]

/-- Segments for one place write to the same place. -/
theorem setChild_of_place_eq (h : c.place s = c.place t) (hs : c.child s = .ok (some v)) (w : Value) :
    c.setChild t w = c.setChild s w := by
  obtain ⟨ms, k, l, rfl, rfl, rfl, hkl, hfind⟩ | ⟨xs, i, j, n, rfl, rfl, rfl, hi, hj, -⟩ :=
    exists_of_place_eq h hs
  · have hk : Members.has k ms = true := by simp [Members.has, hfind]
    rw [setChild, setChild, Members.insert_congr hkl w hk]
  · simp only [setChild, hi, hj]

theorem place_array_set (xs : List Value) (n : Nat) (v t : Value) :
    (Value.array (xs.set n v)).place t = (Value.array xs).place t := by
  cases t with
  | scalar k => cases k <;> simp [place]
  | _ => rfl

/-- Writing into a container leaves the places of its segments as they are. -/
theorem place_setChild (c s v t : Value) : (c.setChild s v).place t = c.place t := by
  cases c with
  | scalar k => cases s <;> rfl
  | object ms => cases s <;> cases t <;> rfl
  | array xs =>
      cases s with
      | scalar k =>
          cases k with
          | int i =>
              cases hi : resolveIndex xs.length i with
              | none => simp only [setChild, hi]
              | some n => simp only [setChild, hi, place_array_set]
          | _ => rfl
      | _ => rfl

/-- What was written with one segment is found with every segment for the same place. -/
theorem child_setChild_of_place_eq (h : c.place s = c.place t) (hs : c.child s = .ok (some v)) (w : Value) :
    (c.setChild s w).child t = .ok (some w) :=
  child_of_place_eq (by rw [place_setChild, place_setChild, h]) (child_setChild_self hs w)

/-- Writing at one place leaves what is found at another. -/
theorem child_setChild_of_place_ne (h : c.place s ≠ c.place t) (hs : c.child s = .ok (some v)) (w : Value) :
    (c.setChild s w).child t = c.child t := by
  obtain ⟨ms, k, rfl, rfl, -⟩ | ⟨xs, i, n, rfl, rfl, hn, -⟩ := exists_of_child hs
  · cases t with
    | scalar l =>
        have hkl : k.same l = false := Bool.eq_false_iff.mpr fun hkl => h (place_object_eq_iff.mpr hkl)
        simp [child, setChild, Members.find?_insert_of_not_same hkl]
    | _ => rfl
  · cases t with
    | scalar l =>
        cases l with
        | int j =>
            -- Another index points to another element, or to none.
            have hj : resolveIndex xs.length j ≠ some n := fun hj => h (place_array_eq_iff.mpr
              ((resolveIndex_eq_some_iff.mp hn).1.trans (resolveIndex_eq_some_iff.mp hj).1.symm))
            cases hm : resolveIndex xs.length j with
            | none => simp [child, setChild, hn, hm]
            | some m =>
                have hnm : n ≠ m := fun hnm => hj (hnm ▸ hm)
                simp [child, setChild, hn, hm, List.getElem?_set_ne hnm]
        | _ => simp [child, setChild, hn]
    | _ => simp [child, setChild, hn]

/-- Two different places of a container may be written to in either order. -/
theorem setChild_comm {u : Value} (h : c.place s ≠ c.place t) (hs : c.child s = .ok (some v))
    (ht : c.child t = .ok (some u)) (x y : Value) :
    (c.setChild s x).setChild t y = (c.setChild t y).setChild s x := by
  obtain ⟨ms, k, rfl, rfl, hk⟩ | ⟨xs, i, n, rfl, rfl, hn, -⟩ := exists_of_child hs
  · obtain ⟨ms, l, heq, rfl, -⟩ | ⟨xs, j, m, heq, -⟩ := exists_of_child ht
    · cases heq
      have hkl : k.same l = false := Bool.eq_false_iff.mpr fun hkl => h (place_object_eq_iff.mpr hkl)
      simp only [setChild]
      rw [Members.insert_comm hkl x y (by simp [Members.has, hk])]
    · cases heq
  · obtain ⟨ms, l, heq, -⟩ | ⟨xs, j, m, heq, rfl, hm, -⟩ := exists_of_child ht
    · cases heq
    · cases heq
      have hnm : n ≠ m := by
        rintro rfl
        exact h (place_array_eq_iff.mpr
          ((resolveIndex_eq_some_iff.mp hn).1.trans (resolveIndex_eq_some_iff.mp hm).1.symm))
      simp [setChild, hn, hm, List.set_comm _ _ hnm]

end Places

/-! ### Writing, one segment at a time -/

/-- A write goes on to the value that its first segment leads to, or adds a member to the object itself. -/
theorem set_cons_eq_ok_iff {doc s v d : Value} {p : Path} :
    doc.set (s :: p) v = .ok d ↔
      (∃ c e, doc.child s = .ok (some c) ∧ c.set p v = .ok e ∧ d = doc.setChild s e) ∨
        ∃ ms k, p = [] ∧ doc = .object ms ∧ s = .scalar k ∧ Members.find? k ms = none ∧
          d = .object (Members.insert k v ms) := by
  constructor
  · intro h
    rcases set_eq_ok_iff.mp h with ⟨old, hold, rfl⟩ | ⟨q, k, ms, heq, hget, hnone, rfl⟩
    · obtain ⟨c, hc, hget⟩ := get_cons_eq_ok_iff.mp hold
      exact .inl ⟨c, c.put p v, hc, set_eq_put hget v, put_cons hc p v⟩
    · cases q with
      | nil =>
          cases heq
          cases hget
          exact .inr ⟨ms, k, rfl, rfl, rfl, hnone, put_nil _ _⟩
      | cons t q =>
          cases heq
          obtain ⟨c, hc, hget⟩ := get_cons_eq_ok_iff.mp hget
          exact .inl ⟨c, _, hc, set_eq_ok_iff.mpr (.inr ⟨q, k, ms, rfl, hget, hnone, rfl⟩),
            put_cons hc q _⟩
  · rintro (⟨c, e, hc, he, rfl⟩ | ⟨ms, k, rfl, rfl, rfl, hnone, rfl⟩)
    · rcases set_eq_ok_iff.mp he with ⟨old, hold, rfl⟩ | ⟨q, k, ms, rfl, hget, hnone, rfl⟩
      · rw [set_eq_put (get_cons_eq_ok_iff.mpr ⟨c, hc, hold⟩), put_cons hc]
      · rw [← List.cons_append, set_snoc_object (get_cons_eq_ok_iff.mpr ⟨c, hc, hget⟩), put_cons hc]
    · rfl

/-! ### Diverging paths -/

/-- Two paths diverge in a document: they lead to the same container and, neither being at its end, go on to
different places of it. -/
inductive Diverge : Value → Path → Path → Prop where
  | here {c s t : Value} (p q : Path) (apart : c.place s ≠ c.place t) : Diverge c (s :: p) (t :: q)
  | deeper {c s t e : Value} {p q : Path} (same : c.place s = c.place t)
      (child : c.child s = .ok (some e)) (diverge : Diverge e p q) : Diverge c (s :: p) (t :: q)

/-- The second path leads to the place that the first one leads to, or to what is below it. -/
inductive Within : Value → Path → Path → Prop where
  | here (c : Value) (q : Path) : Within c [] q
  | deeper {c s t e : Value} {p q : Path} (same : c.place s = c.place t)
      (child : c.child s = .ok (some e)) (within : Within e p q) : Within c (s :: p) (t :: q)

section Separate

variable {doc d v : Value} {p q : Path}

theorem Diverge.symm (h : Diverge doc p q) : Diverge doc q p := by
  induction h with
  | here p q apart => exact .here q p apart.symm
  | deeper same child _ ih => exact .deeper same.symm (child_of_place_eq same child) ih

/-- What is found at another place than the first one of a write is found there afterwards. -/
theorem child_of_set {s t : Value} (h : doc.set (s :: p) v = .ok d) (apart : doc.place s ≠ doc.place t) :
    d.child t = doc.child t := by
  rcases set_cons_eq_ok_iff.mp h with ⟨c, e, hc, -, rfl⟩ | ⟨ms, k, rfl, rfl, rfl, hnone, rfl⟩
  · exact child_setChild_of_place_ne apart hc e
  · cases t with
    | scalar l =>
        have hkl : k.same l = false := Bool.eq_false_iff.mpr fun hkl => apart (place_object_eq_iff.mpr hkl)
        simp [child, Members.find?_insert_of_not_same hkl]
    | _ => rfl

/-- A diverging path finds after a write what it found before, or fails at the same segment. -/
theorem getFrom_of_diverge (diverge : Diverge doc p q) :
    ∀ {d : Value}, doc.set p v = .ok d →
      ∀ whole depth, getFrom whole depth d q = getFrom whole depth doc q := by
  induction diverge with
  | @here doc s t p q apart =>
      intro d h whole depth
      simp only [getFrom, childAt, child_of_set h apart]
  | @deeper doc s t c p q same child _ ih =>
      intro d h whole depth
      rcases set_cons_eq_ok_iff.mp h with ⟨c', e, hc, he, rfl⟩ | ⟨ms, k, -, rfl, rfl, hnone, -⟩
      · obtain rfl : c = c' := by simpa [child] using hc
        -- The second path leads into the value that the write has changed.
        have hbefore : doc.child t = .ok (some c) := child_of_place_eq same child
        have hafter : (doc.setChild s e).child t = .ok (some e) :=
          child_setChild_of_place_eq same child e
        simp only [getFrom, childAt_eq_ok_iff.mpr hbefore, childAt_eq_ok_iff.mpr hafter, ok_bind]
        exact ih he whole (depth + 1)
      · simp [Value.child, hnone] at child

/-- Whatever is put at a path, a diverging one finds what it found before. -/
theorem get_put_of_diverge {old : Value} (diverge : Diverge doc p q) (h : doc.get p = .ok old) (v : Value) :
    (doc.put p v).get q = doc.get q :=
  getFrom_of_diverge diverge (set_eq_put h v) q 0

/-- A container gives way to one that is the same for all paths diverging from `ts`. What a path finds that
diverges from all of `ts` below the container is what it found before. -/
theorem getFrom_put_of_diverge {ts : List Path} (hts : ts ≠ []) {c e : Value}
    (same : ∀ q, (∀ t ∈ ts, Diverge c t q) → ∀ whole depth, getFrom whole depth e q = getFrom whole depth c q) :
    ∀ {p : Path} {doc : Value}, doc.get p = .ok c → ∀ {r : Path}, (∀ t ∈ ts, Diverge doc (p ++ t) r) →
      ∀ whole depth, getFrom whole depth (doc.put p e) r = getFrom whole depth doc r := by
  obtain ⟨t₀, ht₀⟩ := List.exists_mem_of_ne_nil ts hts
  intro p
  induction p with
  | nil =>
      intro doc hget r diverge whole depth
      cases hget
      rw [put_nil]
      exact same r diverge whole depth
  | cons s p ih =>
      intro doc hget r diverge whole depth
      obtain ⟨a, ha, hget⟩ := get_cons_eq_ok_iff.mp hget
      rw [put_cons ha]
      cases r with
      | nil => cases diverge t₀ ht₀
      | cons u r =>
          by_cases hplace : doc.place s = doc.place u
          · have hbefore : doc.child u = .ok (some a) := child_of_place_eq hplace ha
            have hafter : (doc.setChild s (a.put p e)).child u = .ok (some (a.put p e)) :=
              child_setChild_of_place_eq hplace ha _
            have hdeeper : ∀ t ∈ ts, Diverge a (p ++ t) r := by
              intro t ht
              cases diverge t ht with
              | here _ _ apart => exact absurd hplace apart
              | deeper _ child diverge =>
                  cases ha.symm.trans child
                  exact diverge
            simp only [getFrom, childAt_eq_ok_iff.mpr hbefore, childAt_eq_ok_iff.mpr hafter, ok_bind]
            exact ih hget hdeeper whole (depth + 1)
          · simp only [getFrom, childAt, child_setChild_of_place_ne hplace ha]

/-- An object outside the place of a write keeps its keys in order, and may gain one at its end. -/
theorem keys_prefix_of_set {r : Path} :
    ∀ {doc d : Value} {p : Path} {ms : Members}, doc.set p v = .ok d → doc.get r = .ok (.object ms) →
      ¬ Within doc p r →
        ∃ ns, d.get r = .ok (.object ns) ∧ Members.keys ms <+: Members.keys ns := by
  induction r with
  | nil =>
      intro doc d p ms h hget outside
      cases hget
      cases p with
      | nil => exact absurd (.here _ _) outside
      | cons s p =>
          rcases set_cons_eq_ok_iff.mp h with ⟨c, e, hc, -, rfl⟩ | ⟨_, k, -, heq, rfl, -, rfl⟩
          · obtain ⟨_, k, heq, rfl, -⟩ | ⟨xs, -, -, heq, -⟩ := exists_of_child hc
            · cases heq
              exact ⟨_, rfl, Members.keys_prefix_insert k e ms⟩
            · cases heq
          · cases heq
            exact ⟨_, rfl, Members.keys_prefix_insert k v ms⟩
  | cons t r ih =>
      intro doc d p ms h hget outside
      obtain ⟨c, hc, hobject⟩ := get_cons_eq_ok_iff.mp hget
      cases p with
      | nil => exact absurd (.here _ _) outside
      | cons s p =>
          by_cases hplace : doc.place s = doc.place t
          · have hs : doc.child s = .ok (some c) := child_of_place_eq hplace.symm hc
            rcases set_cons_eq_ok_iff.mp h with ⟨c', e, hc', he, rfl⟩ | ⟨ms, k, -, rfl, rfl, hnone, -⟩
            · obtain rfl : c = c' := by simpa [hs] using hc'
              obtain ⟨ns, hns, hkeys⟩ := ih he hobject fun within => outside (.deeper hplace hs within)
              exact ⟨ns, get_cons_eq_ok_iff.mpr ⟨e, child_setChild_of_place_eq hplace hs e, hns⟩, hkeys⟩
            · simp [child, hnone] at hs
          · refine ⟨ms, get_cons_eq_ok_iff.mpr ⟨c, ?_, hobject⟩, List.prefix_refl _⟩
            rw [child_of_set h hplace, hc]

theorem put_cons_of_place_eq {s t c : Value} (h : doc.place s = doc.place t)
    (hs : doc.child s = .ok (some c)) (q : Path) (w : Value) : doc.put (t :: q) w = doc.put (s :: q) w := by
  rw [put_cons (child_of_place_eq h hs), put_cons hs, setChild_of_place_eq h hs]

/-- What is put at diverging paths may be put there in either order. -/
theorem put_comm (diverge : Diverge doc p q) :
    ∀ {old other : Value}, doc.get p = .ok old → doc.get q = .ok other → ∀ v w,
      (doc.put p v).put q w = (doc.put q w).put p v := by
  induction diverge with
  | @here doc s t p q apart =>
      intro old other hp hq v w
      obtain ⟨c, hs, -⟩ := get_cons_eq_ok_iff.mp hp
      obtain ⟨e, ht, -⟩ := get_cons_eq_ok_iff.mp hq
      have hs' : (doc.setChild t (e.put q w)).child s = .ok (some c) :=
        (child_setChild_of_place_ne apart.symm ht _).trans hs
      have ht' : (doc.setChild s (c.put p v)).child t = .ok (some e) :=
        (child_setChild_of_place_ne apart hs _).trans ht
      rw [put_cons hs, put_cons ht, put_cons hs', put_cons ht', setChild_comm apart hs ht]
  | @deeper doc s t c p q same child _ ih =>
      intro old other hp hq v w
      obtain ⟨c', hs, hold⟩ := get_cons_eq_ok_iff.mp hp
      obtain ⟨c'', ht, hother⟩ := get_cons_eq_ok_iff.mp hq
      obtain rfl : c = c' := by simpa [child] using hs
      obtain rfl : c = c'' := by simpa [child_of_place_eq same child] using ht
      -- Both paths go through the value `c`, which may as well be reached by the first segment.
      have hinside : (doc.setChild s (c.put p v)).place s = (doc.setChild s (c.put p v)).place t := by
        rw [place_setChild, place_setChild, same]
      rw [put_cons_of_place_eq same child, put_cons child, put_cons child,
        put_cons_of_place_eq hinside (child_setChild_self child _), put_cons (child_setChild_self child _),
        put_cons (child_setChild_self child _), setChild_setChild, setChild_setChild, ih hold hother]

end Separate

/-- Writes to separate places do not interact. A path that diverges from that of a write gives the same answer
before and after it, be it a value or a fault with its segment; the keys of every object that is not at the
written place or below it are still there, in order and before any new one; and of two writes along diverging
paths that lead somewhere either may come first. -/
theorem set_apart {doc d v : Value} {p : Path} (h : doc.set p v = .ok d) :
    (∀ q, Diverge doc p q → d.get q = doc.get q) ∧
      (∀ r ms, doc.get r = .ok (.object ms) → ¬ Within doc p r →
        ∃ ns, d.get r = .ok (.object ns) ∧ Members.keys ms <+: Members.keys ns) ∧
      ∀ q w old other, Diverge doc p q → doc.get p = .ok old → doc.get q = .ok other →
        ∃ e, d.set q w = .ok e ∧ (doc.set q w >>= fun d' => d'.set p v) = .ok e := by
  refine ⟨fun q diverge => getFrom_of_diverge diverge h q 0, fun r ms => keys_prefix_of_set h,
    fun q w old other diverge hp hq => ?_⟩
  have hd : d = doc.put p v := Except.ok.inj (h.symm.trans (set_eq_put hp v))
  have hq' : d.get q = .ok other := (getFrom_of_diverge diverge h q 0).trans hq
  have hp' : (doc.put q w).get p = .ok old :=
    (getFrom_of_diverge diverge.symm (set_eq_put hq w) p 0).trans hp
  refine ⟨d.put q w, set_eq_put hq' w, ?_⟩
  rw [set_eq_put hq, ok_bind, set_eq_put hp', hd, put_comm diverge hp hq]

def twoRows : Value :=
  .object [(.str "rows", .array [.object [(.str "a", .int 1)], .object [(.str "b", .int 2)]])]

def inFirstRow (name : String) : Path := [.str "rows", .int (-2), .str name]

def inSecondRow : Path := [.str "rows", .int 1, .str "b"]

theorem diverge_rows (name : String) : Diverge twoRows (inFirstRow name) inSecondRow :=
  .deeper rfl rfl (.here _ _ (by simp [place, fromStart]))

/-- A new member of the first row leaves the second row alone and comes after the member that is there; two
members that are there may be written in either order. -/
theorem set_apart_rows :
    (∃ d, twoRows.set (inFirstRow "c") .null = .ok d ∧ d.get inSecondRow = .ok (.int 2) ∧
      ∃ ns, d.get [.str "rows", .int 0] = .ok (.object ns) ∧ [.str "a"] <+: Members.keys ns) ∧
    ∃ d e, twoRows.set (inFirstRow "a") .null = .ok d ∧ d.set inSecondRow (.bool true) = .ok e ∧
      (twoRows.set inSecondRow (.bool true) >>= fun d' => d'.set (inFirstRow "a") .null) = .ok e := by
  constructor
  · have hset : twoRows.set (inFirstRow "c") .null = .ok (.object [(.str "rows", .array
        [.object [(.str "a", .int 1), (.str "c", .null)], .object [(.str "b", .int 2)]])]) := rfl
    obtain ⟨hget, hkeys, -⟩ := set_apart hset
    have outside : ¬ Within twoRows (inFirstRow "c") [.str "rows", .int 0] := by
      rintro (_ | ⟨-, hrows, _ | ⟨-, -, hnil⟩⟩)
      cases hnil
    exact ⟨_, hset, hget _ (diverge_rows "c"), hkeys _ [(.str "a", .int 1)] rfl outside⟩
  · have hset : twoRows.set (inFirstRow "a") .null = .ok (.object [(.str "rows", .array
        [.object [(.str "a", .null)], .object [(.str "b", .int 2)]])]) := rfl
    obtain ⟨e, he, hcomm⟩ := (set_apart hset).2.2 inSecondRow (.bool true) _ _ (diverge_rows "a") rfl rfl
    exact ⟨_, e, hset, he, hcomm⟩

end Value

end SchemaForge
