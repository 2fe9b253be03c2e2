import Mathlib.Data.List.Induction
import SchemaForge.Path.Walk
import SchemaForge.Proofs.Answers
import SchemaForge.Proofs.Value.Json

/-!
Looking up, replacing, writing and removing along a path, all in terms of two things: which value a path
leads to, and the document with another value there. How deep a walk is and which path is to be blamed
matter to its faults alone, so they are gone from these statements; and writing or removing at a path is
replacing the container that its last segment leaves.
-/

namespace SchemaForge.Value

/-! ### One segment -/

theorem resolveIndex_lt {n i : Nat} {z : Int} (h : resolveIndex n z = some i) : i < n := by
  unfold resolveIndex at h
  split at h
  · split at h
    · have := Option.some.inj h
      omega
    · contradiction
  · split at h
    · have := Option.some.inj h
      omega
    · contradiction

/-- A segment leads somewhere in two ways: as a key of an object, or as an index of an array. -/
theorem exists_of_child {c s v : Value} (h : c.child s = .ok (some v)) :
    (∃ ms k, c = .object ms ∧ s = .scalar k ∧ Members.find? k ms = some v) ∨
      ∃ xs i n, c = .array xs ∧ s = .scalar (.int i) ∧ resolveIndex xs.length i = some n ∧
        xs[n]? = some v := by
  cases c with
  | scalar k => simp [child] at h
  | object ms =>
      cases s with
      | scalar k => exact .inl ⟨ms, k, rfl, rfl, by simpa [child] using h⟩
      | array xs => simp [child, key] at h
      | object ns => simp [child, key] at h
  | array xs =>
      cases s with
      | scalar k =>
          cases k with
          | int i =>
              simp only [child, Except.ok.injEq, Option.bind_eq_some_iff] at h
              obtain ⟨n, hn, hv⟩ := h
              exact .inr ⟨xs, i, n, rfl, rfl, hn, hv⟩
          | _ => simp [child] at h
      | array ys => simp [child] at h
      | object ns => simp [child] at h

/-- A segment that leads somewhere leads there after something else was put there. -/
theorem child_setChild_self {c s old : Value} (h : c.child s = .ok (some old)) (v : Value) :
    (c.setChild s v).child s = .ok (some v) := by
  obtain ⟨ms, k, rfl, rfl, -⟩ | ⟨xs, i, n, rfl, rfl, hn, -⟩ := exists_of_child h
  · simp [child, setChild, Members.find?_insert_self]
  · simp [child, setChild, hn, resolveIndex_lt hn]

theorem setChild_setChild (c s v w : Value) :
    (c.setChild s v).setChild s w = c.setChild s w := by
  cases c with
  | scalar k => cases s <;> rfl
  | object ms =>
      cases s with
      | scalar k => simp [setChild, Members.insert_insert]
      | array xs => rfl
      | object ns => rfl
  | array xs =>
      cases s with
      | scalar k =>
          cases k with
          | int i =>
              simp only [setChild]
              cases hn : resolveIndex xs.length i with
              | none => simp [hn]
              | some n => simp [hn]
          | _ => rfl
      | array ys => rfl
      | object ns => rfl

theorem setChild_self {c s v : Value} (h : c.child s = .ok (some v)) : c.setChild s v = c := by
  obtain ⟨ms, k, rfl, rfl, hfind⟩ | ⟨xs, i, n, rfl, rfl, hn, hv⟩ := exists_of_child h
  · rw [setChild, Members.insert_of_find? hfind]
  · obtain ⟨hlt, rfl⟩ := List.getElem?_eq_some_iff.mp hv
    simp [setChild, hn]

/-! ### Looking up -/

theorem childAt_eq_ok_iff {whole : Path} {depth : Nat} {c s v : Value} :
    childAt whole depth c s = .ok v ↔ c.child s = .ok (some v) := by
  rw [childAt, bind_eq_ok_iff]
  constructor
  · rintro ⟨o, ho, hv⟩
    cases o with
    | none => cases hv
    | some w =>
        cases hv
        exact ho
  · exact fun h => ⟨some v, h, rfl⟩

theorem getFrom_cons_eq_ok_iff {whole : Path} {depth : Nat} {doc s v : Value} {path : Path} :
    getFrom whole depth doc (s :: path) = .ok v ↔
      ∃ c, doc.child s = .ok (some c) ∧ getFrom whole (depth + 1) c path = .ok v := by
  simp only [getFrom, bind_eq_ok_iff, childAt_eq_ok_iff]

/-- Where a path leads does not depend on what would be blamed. -/
theorem getFrom_eq_ok_iff {whole : Path} {depth : Nat} {doc v : Value} {path : Path} :
    getFrom whole depth doc path = .ok v ↔ doc.get path = .ok v := by
  rw [get]
  suffices h : ∀ (whole whole' : Path) (depth depth' : Nat) (doc : Value),
      getFrom whole depth doc path = .ok v → getFrom whole' depth' doc path = .ok v from
    ⟨h _ _ _ _ doc, h _ _ _ _ doc⟩
  induction path with
  | nil => exact fun _ _ _ _ _ h => h
  | cons s path ih =>
      intro whole whole' depth depth' doc h
      obtain ⟨c, hc, hv⟩ := getFrom_cons_eq_ok_iff.mp h
      exact getFrom_cons_eq_ok_iff.mpr ⟨c, hc, ih _ _ _ _ c hv⟩

theorem get_cons_eq_ok_iff {doc s v : Value} {path : Path} :
    doc.get (s :: path) = .ok v ↔ ∃ c, doc.child s = .ok (some c) ∧ c.get path = .ok v := by
  rw [get, getFrom_cons_eq_ok_iff]
  simp only [getFrom_eq_ok_iff]

theorem get_append_eq_ok_iff {doc v : Value} {p q : Path} :
    doc.get (p ++ q) = .ok v ↔ ∃ c, doc.get p = .ok c ∧ c.get q = .ok v := by
  induction p generalizing doc with
  | nil => simp
  | cons s p ih =>
      simp only [List.cons_append, get_cons_eq_ok_iff, ih]
      constructor
      · rintro ⟨c, hc, d, hd, hv⟩
        exact ⟨d, ⟨c, hc, hd⟩, hv⟩
      · rintro ⟨d, ⟨c, hc, hd⟩, hv⟩
        exact ⟨c, hc, d, hd, hv⟩

theorem get_snoc_eq_ok_iff {doc s v : Value} {p : Path} :
    doc.get (p ++ [s]) = .ok v ↔ ∃ c, doc.get p = .ok c ∧ c.child s = .ok (some v) := by
  simp [get_append_eq_ok_iff, get_cons_eq_ok_iff]

/-! ### Putting something else there -/

def put : Value → Path → Value → Value
  | _, [], v => v
  | doc, s :: path, v =>
      match doc.child s with
      | .ok (some c) => doc.setChild s (c.put path v)
      | _ => doc

@[simp] theorem put_nil (doc v : Value) : doc.put [] v = v := by rw [put]

theorem put_cons {doc s c : Value} (h : doc.child s = .ok (some c)) (path : Path) (v : Value) :
    doc.put (s :: path) v = doc.setChild s (c.put path v) := by
  rw [put, h]

theorem put_append {p : Path} :
    ∀ {doc c : Value}, doc.get p = .ok c → ∀ (q : Path) (v : Value),
      doc.put (p ++ q) v = doc.put p (c.put q v) := by
  induction p with
  | nil =>
      intro doc c h q v
      cases h
      rw [List.nil_append, put_nil]
  | cons s p ih =>
      intro doc c h q v
      obtain ⟨d, hd, hc⟩ := get_cons_eq_ok_iff.mp h
      rw [List.cons_append, put_cons hd, put_cons hd, ih hc]

/-- What was put somewhere is found there. -/
theorem get_put {path : Path} :
    ∀ {doc old : Value}, doc.get path = .ok old → ∀ v, (doc.put path v).get path = .ok v := by
  induction path with
  | nil => exact fun _ v => by rw [put_nil, get_nil]
  | cons s path ih =>
      intro doc old h v
      obtain ⟨c, hc, hold⟩ := get_cons_eq_ok_iff.mp h
      rw [put_cons hc]
      exact get_cons_eq_ok_iff.mpr ⟨_, child_setChild_self hc _, ih hold v⟩

/-- Of two values put at the same place the later one stays. -/
theorem put_put {path : Path} :
    ∀ {doc old : Value}, doc.get path = .ok old →
      ∀ v w, (doc.put path v).put path w = doc.put path w := by
  induction path with
  | nil => exact fun _ v w => by rw [put_nil, put_nil]
  | cons s path ih =>
      intro doc old h v w
      obtain ⟨c, hc, hold⟩ := get_cons_eq_ok_iff.mp h
      rw [put_cons hc, put_cons (child_setChild_self hc _), put_cons hc, setChild_setChild,
        ih hold]

/-- Putting back what is there changes nothing. -/
theorem put_self {path : Path} :
    ∀ {doc old : Value}, doc.get path = .ok old → doc.put path old = doc := by
  induction path with
  | nil =>
      intro doc old h
      cases h
      rw [put_nil]
  | cons s path ih =>
      intro doc old h
      obtain ⟨c, hc, hold⟩ := get_cons_eq_ok_iff.mp h
      rw [put_cons hc, ih hold, setChild_self hc]

/-! ### The members of an object -/

theorem child_object (ms : Members) (k : Scalar) :
    (Value.object ms).child (.scalar k) = .ok (Members.find? k ms) := rfl

theorem exists_of_child_object {ms : Members} {s v : Value}
    (h : (Value.object ms).child s = .ok (some v)) :
    ∃ k, s = .scalar k ∧ Members.find? k ms = some v := by
  obtain ⟨_, k, heq, rfl, hv⟩ | ⟨_, _, _, heq, -⟩ := exists_of_child h
  · cases heq
    exact ⟨k, rfl, hv⟩
  · cases heq

theorem get_key_eq_ok_iff {ms : Members} {k : Scalar} {v : Value} {p : Path} :
    (Value.object ms).get (.scalar k :: p) = .ok v ↔
      ∃ c, Members.find? k ms = some c ∧ c.get p = .ok v := by
  simp only [get_cons_eq_ok_iff, child_object, Except.ok.injEq]

theorem get_snoc_object {doc v : Value} {p : Path} {ms : Members}
    (h : doc.get p = .ok (.object ms)) (k : Scalar) :
    doc.get (p ++ [.scalar k]) = .ok v ↔ Members.find? k ms = some v := by
  rw [get_snoc_eq_ok_iff, h]
  simp [child]

theorem put_snoc_object {doc v : Value} {p : Path} {ms : Members} {k : Scalar}
    (h : doc.get p = .ok (.object ms)) (hv : Members.find? k ms = some v) (w : Value) :
    doc.put (p ++ [.scalar k]) w = doc.put p (.object (Members.insert k w ms)) := by
  have hchild : (Value.object ms).child (.scalar k) = .ok (some v) := by simp [child, hv]
  rw [put_append h, put_cons hchild, put_nil]
  rfl

/-! ### Replacing, writing and removing -/

theorem update_eq_ok_iff {doc d : Value} {path : Path} {f : Value → Except Fault Value} :
    doc.update path f = .ok d ↔
      ∃ v w, doc.get path = .ok v ∧ f v = .ok w ∧ d = doc.put path w := by
  rw [update]
  -- The induction goes down the path with the whole path and the depth as they change for faults.
  suffices h : ∀ (whole : Path) (depth : Nat) (doc d : Value),
      updateFrom whole f depth doc path = .ok d ↔
        ∃ v w, doc.get path = .ok v ∧ f v = .ok w ∧ d = doc.put path w from h path 0 doc d
  induction path with
  | nil =>
      intro whole depth doc d
      simp [updateFrom]
  | cons s path ih =>
      intro whole depth doc d
      simp only [updateFrom, childAt_eq_ok_iff, bind_eq_ok_iff, ih, get_cons_eq_ok_iff, pure_eq_ok]
      constructor
      · rintro ⟨c, hc, _, ⟨v, w, hv, hw, rfl⟩, hd⟩
        cases hd
        exact ⟨v, w, ⟨c, hc, hv⟩, hw, (put_cons hc path w).symm⟩
      · rintro ⟨v, w, ⟨c, hc, hv⟩, hw, rfl⟩
        exact ⟨c, hc, _, ⟨v, w, hv, hw, rfl⟩, by rw [put_cons hc]⟩

theorem set_snoc (doc : Value) (p : Path) (s v : Value) :
    doc.set (p ++ [s]) v = doc.update p (writeLast (p ++ [s]) s v) := by
  rw [set, List.getLast?_concat, List.dropLast_concat]

theorem remove_snoc (doc : Value) (p : Path) (s : Value) :
    doc.remove (p ++ [s]) = doc.update p (eraseLast (p ++ [s]) s) := by
  rw [remove, List.getLast?_concat, List.dropLast_concat]

/-- An object takes any key. -/
theorem set_snoc_object {doc : Value} {p : Path} {ms : Members} (h : doc.get p = .ok (.object ms))
    (k : Scalar) (v : Value) :
    doc.set (p ++ [.scalar k]) v = .ok (doc.put p (.object (Members.insert k v ms))) := by
  rw [set_snoc]
  exact update_eq_ok_iff.mpr ⟨_, _, h, rfl, rfl⟩

theorem remove_snoc_object {doc : Value} {p : Path} {ms : Members}
    (h : doc.get p = .ok (.object ms)) (s : Value) :
    doc.remove (p ++ [s]) =
      .ok (doc.put p (.object (ms.filter fun m => !(Value.scalar m.1).equals s))) := by
  rw [remove_snoc]
  exact update_eq_ok_iff.mpr ⟨_, _, h, rfl, rfl⟩

theorem writeLast_of_child {whole : Path} {c s old : Value} (h : c.child s = .ok (some old))
    (v : Value) : writeLast whole s v c = .ok (c.setChild s v) := by
  obtain ⟨ms, k, rfl, rfl, -⟩ | ⟨xs, i, n, rfl, rfl, -, -⟩ := exists_of_child h
  · rfl
  · simp [writeLast, childAt, h]

/-- Writing at a last segment replaces what it leads to, or adds a member to an object. -/
theorem writeLast_eq_ok_iff {whole : Path} {s v c d : Value} :
    writeLast whole s v c = .ok d ↔
      (∃ old, c.child s = .ok (some old) ∧ d = c.setChild s v) ∨
        ∃ ms k, c = .object ms ∧ s = .scalar k ∧ Members.find? k ms = none ∧
          d = .object (Members.insert k v ms) := by
  constructor
  · intro h
    cases c with
    | scalar k => cases h
    | object ms =>
        obtain ⟨k, hk, hd⟩ := bind_eq_ok_iff.mp h
        cases hd
        cases s with
        | scalar l =>
            cases hk
            cases hfind : Members.find? k ms with
            | none => exact .inr ⟨ms, k, rfl, rfl, hfind, rfl⟩
            | some old => exact .inl ⟨old, by simp [child, hfind], rfl⟩
        | array xs => cases hk
        | object ns => cases hk
    | array xs =>
        obtain ⟨old, hold, hd⟩ := bind_eq_ok_iff.mp h
        cases hd
        exact .inl ⟨old, childAt_eq_ok_iff.mp hold, rfl⟩
  · rintro (⟨old, hold, rfl⟩ | ⟨ms, k, rfl, rfl, -, rfl⟩)
    · exact writeLast_of_child hold v
    · rfl

/-- Writing where something is puts the value there. -/
theorem set_eq_put {doc old : Value} {path : Path} (h : doc.get path = .ok old) (v : Value) :
    doc.set path v = .ok (doc.put path v) := by
  induction path using List.reverseRecOn with
  | nil => rw [set_nil, put_nil]
  | append_singleton p s _ =>
      obtain ⟨c, hc, hold⟩ := get_snoc_eq_ok_iff.mp h
      rw [set_snoc]
      refine update_eq_ok_iff.mpr ⟨c, _, hc, writeLast_of_child hold v, ?_⟩
      rw [put_append hc, put_cons hold, put_nil]

/-- What writing at a last segment makes of a container. -/
theorem exists_of_writeLast {whole : Path} {s v c d : Value} (h : writeLast whole s v c = .ok d) :
    (∃ ms k, c = .object ms ∧ s = .scalar k ∧ d = .object (Members.insert k v ms)) ∨
      ∃ xs n, c = .array xs ∧ d = .array (xs.set n v) := by
  obtain ⟨old, hold, rfl⟩ | ⟨ms, k, rfl, rfl, -, rfl⟩ := writeLast_eq_ok_iff.mp h
  · obtain ⟨ms, k, rfl, rfl, -⟩ | ⟨xs, i, n, rfl, rfl, hn, -⟩ := exists_of_child hold
    · exact .inl ⟨ms, k, rfl, rfl, rfl⟩
    · exact .inr ⟨xs, n, rfl, by simp only [setChild, hn]⟩
  · exact .inl ⟨ms, k, rfl, rfl, rfl⟩

/-- What removing a last segment makes of a container. -/
theorem exists_of_eraseLast {whole : Path} {s c d : Value} (h : eraseLast whole s c = .ok d) :
    (∃ ms, c = .object ms ∧ d = .object (ms.filter fun m => !(Value.scalar m.1).equals s)) ∨
      ∃ xs ys, c = .array xs ∧ d = .array ys ∧ ys.Sublist xs := by
  cases c with
  | scalar k => simp [eraseLast] at h
  | object ms => exact .inl ⟨ms, rfl, (Except.ok.inj h).symm⟩
  | array xs =>
      obtain ⟨old, -, hd⟩ := bind_eq_ok_iff.mp h
      split at hd
      · next i =>
          cases hd
          refine .inr ⟨xs, _, rfl, rfl, ?_⟩
          cases resolveIndex xs.length i with
          | none => exact List.Sublist.refl xs
          | some n => exact List.eraseIdx_sublist xs n
      · cases hd
        exact .inr ⟨xs, xs, rfl, rfl, List.Sublist.refl xs⟩

/-- Writing at a path that is not empty puts another container where all but its last segment leads. -/
theorem exists_of_set_snoc {doc s v d : Value} {p : Path} (h : doc.set (p ++ [s]) v = .ok d) :
    (∃ ms k, doc.get p = .ok (.object ms) ∧ s = .scalar k ∧
      d = doc.put p (.object (Members.insert k v ms))) ∨
      ∃ xs n, doc.get p = .ok (.array xs) ∧ d = doc.put p (.array (xs.set n v)) := by
  rw [set_snoc] at h
  obtain ⟨c, e, hget, hlast, rfl⟩ := update_eq_ok_iff.mp h
  obtain ⟨ms, k, rfl, rfl, rfl⟩ | ⟨xs, n, rfl, rfl⟩ := exists_of_writeLast hlast
  · exact .inl ⟨ms, k, hget, rfl, rfl⟩
  · exact .inr ⟨xs, n, hget, rfl⟩

theorem exists_of_remove_snoc {doc s d : Value} {p : Path} (h : doc.remove (p ++ [s]) = .ok d) :
    (∃ ms, doc.get p = .ok (.object ms) ∧
      d = doc.put p (.object (ms.filter fun m => !(Value.scalar m.1).equals s))) ∨
      ∃ xs ys, doc.get p = .ok (.array xs) ∧ ys.Sublist xs ∧ d = doc.put p (.array ys) := by
  rw [remove_snoc] at h
  obtain ⟨c, e, hget, hlast, rfl⟩ := update_eq_ok_iff.mp h
  obtain ⟨ms, rfl, rfl⟩ | ⟨xs, ys, rfl, rfl, hys⟩ := exists_of_eraseLast hlast
  · exact .inl ⟨ms, hget, rfl⟩
  · exact .inr ⟨xs, ys, hget, hys, rfl⟩

/-! ### Documents in step -/

/-- A relation between two documents that each segment of a path keeps is kept by the whole path: where the one leads,
the other leads too. The relation may depend on how the path goes on. -/
theorem exists_get_of_step {R : Path → Value → Value → Prop}
    (step : ∀ {s v w c : Value} {p : Path}, R (s :: p) v w → v.child s = .ok (some c) →
      ∃ d, w.child s = .ok (some d) ∧ R p c d) {p : Path} :
    ∀ {v w u : Value}, R p v w → v.get p = .ok u → ∃ t, w.get p = .ok t ∧ R [] u t := by
  induction p with
  | nil =>
      intro v w u h hu
      cases hu
      exact ⟨w, rfl, h⟩
  | cons s p ih =>
      intro v w u h hu
      obtain ⟨c, hc, hu⟩ := get_cons_eq_ok_iff.mp hu
      obtain ⟨d, hd, hcd⟩ := step h hc
      obtain ⟨t, ht, hut⟩ := ih hcd hu
      exact ⟨t, get_cons_eq_ok_iff.mpr ⟨d, hd, ht⟩, hut⟩

/-! ### Kinds of containers -/

/-- Two objects or two arrays. -/
inductive SameKind : Value → Value → Prop where
  | object (ms ns : Members) : SameKind (.object ms) (.object ns)
  | array (xs ys : List Value) : SameKind (.array xs) (.array ys)

theorem SameKind.isObject_eq {v w : Value} (h : SameKind v w) : v.isObject = w.isObject := by
  cases h <;> rfl

theorem sameKind_setChild {c s old : Value} (h : c.child s = .ok (some old)) (v : Value) :
    SameKind c (c.setChild s v) := by
  obtain ⟨ms, k, rfl, rfl, -⟩ | ⟨xs, i, n, rfl, rfl, hn, -⟩ := exists_of_child h
  · exact .object _ _
  · simp only [setChild, hn]
    exact .array _ _

/-- What takes the place of a container leaves the whole document of its kind. -/
theorem SameKind.put {doc v w : Value} {path : Path} (h : SameKind v w)
    (hget : doc.get path = .ok v) : SameKind doc (doc.put path w) := by
  cases path with
  | nil =>
      cases hget
      rwa [put_nil]
  | cons s path =>
      obtain ⟨c, hc, -⟩ := get_cons_eq_ok_iff.mp hget
      rw [put_cons hc]
      exact sameKind_setChild hc _

theorem sameKind_set {doc s v d : Value} {p : Path} (h : doc.set (p ++ [s]) v = .ok d) :
    SameKind doc d := by
  obtain ⟨ms, k, hget, -, rfl⟩ | ⟨xs, n, hget, rfl⟩ := exists_of_set_snoc h
  · exact (SameKind.object _ _).put hget
  · exact (SameKind.array _ _).put hget

theorem sameKind_remove {doc d : Value} {path : Path} (h : doc.remove path = .ok d) :
    SameKind doc d := by
  induction path using List.reverseRecOn with
  | nil => simp at h
  | append_singleton p s _ =>
      obtain ⟨ms, hget, rfl⟩ | ⟨xs, ys, hget, -, rfl⟩ := exists_of_remove_snoc h
      · exact (SameKind.object _ _).put hget
      · exact (SameKind.array _ _).put hget

/-! ### Hereditary properties -/

section Hereditary

variable {K : Scalar → Prop} {P : Value → Prop} (hP : Hereditary K P)

include hP

theorem Hereditary.of_child {c s v : Value} (hc : P c) (h : c.child s = .ok (some v)) : P v := by
  obtain ⟨ms, k, rfl, rfl, hfind⟩ | ⟨xs, i, n, rfl, rfl, -, hv⟩ := exists_of_child h
  · exact hP.of_find? hc hfind
  · exact (hP.array_iff xs).mp hc v (List.mem_of_getElem? hv)

theorem Hereditary.of_get {path : Path} :
    ∀ {doc v : Value}, P doc → doc.get path = .ok v → P v := by
  induction path with
  | nil =>
      intro doc v hdoc h
      cases h
      exact hdoc
  | cons s path ih =>
      intro doc v hdoc h
      obtain ⟨c, hc, hv⟩ := get_cons_eq_ok_iff.mp h
      exact ih (hP.of_child hdoc hc) hv

theorem Hereditary.set_array {xs : List Value} {v : Value} (hxs : P (.array xs)) (hv : P v) (n : Nat) :
    P (.array (xs.set n v)) := by
  refine (hP.array_iff _).mpr fun x hx => ?_
  rcases List.mem_or_eq_of_mem_set hx with hx | rfl
  · exact (hP.array_iff xs).mp hxs x hx
  · exact hv

theorem Hereditary.setChild {c s old v : Value} (hc : P c) (h : c.child s = .ok (some old))
    (hv : P v) : P (c.setChild s v) := by
  obtain ⟨ms, k, rfl, rfl, hfind⟩ | ⟨xs, i, n, rfl, rfl, hn, -⟩ := exists_of_child h
  · exact hP.insert hc (.inr (by rw [Members.has, hfind]; rfl)) hv
  · simp only [Value.setChild, hn]
    exact hP.set_array hc hv n

/-- What a document may hold may be put anywhere in it. -/
theorem Hereditary.put {path : Path} :
    ∀ {doc old v : Value}, P doc → doc.get path = .ok old → P v → P (doc.put path v) := by
  induction path with
  | nil =>
      intro doc old v _ _ hv
      rwa [put_nil]
  | cons s path ih =>
      intro doc old v hdoc h hv
      obtain ⟨c, hc, hold⟩ := get_cons_eq_ok_iff.mp h
      rw [put_cons hc]
      exact hP.setChild hdoc hc (ih (hP.of_child hdoc hc) hold hv)

end Hereditary

/-! ### JSON -/

theorem isJson_of_get {path : Path} {doc v : Value} (hdoc : doc.IsJson) (h : doc.get path = .ok v) :
    v.IsJson :=
  hereditary_isJson.of_get hdoc h

/-- A JSON value put into a JSON document gives a JSON document. -/
theorem isJson_put {path : Path} {doc old v : Value} (hdoc : doc.IsJson) (h : doc.get path = .ok old)
    (hv : v.IsJson) : (doc.put path v).IsJson :=
  hereditary_isJson.put hdoc h hv

end SchemaForge.Value
