import SchemaForge.Proofs.Path.Lens

/-!
The laws of writing at a path. A write that succeeds either replaces what the path leads to, or gives an
object a further member at its end; from these two cases follows what is found after a write, and what a
second write, a write of what is there already and an update come to. Negative indices and the empty path
are cases of the first kind like all others.
-/

namespace SchemaForge.Value

/-! ### One write -/

/-- A write replaces what the path leads to, or adds a member to an object that lacks the last key. -/
theorem set_eq_ok_iff {doc v d : Value} {path : Path} :
    doc.set path v = .ok d ↔
      (∃ old, doc.get path = .ok old ∧ d = doc.put path v) ∨
        ∃ p k ms, path = p ++ [.scalar k] ∧ doc.get p = .ok (.object ms) ∧
          Members.find? k ms = none ∧ d = doc.put p (.object (Members.insert k v ms)) := by
  induction path using List.reverseRecOn with
  | nil =>
      constructor
      · rintro ⟨⟩
        exact .inl ⟨doc, rfl, rfl⟩
      · rintro (⟨old, -, rfl⟩ | ⟨p, k, ms, heq, -⟩)
        · rfl
        · simp at heq
  | append_singleton p s _ =>
      rw [set_snoc, update_eq_ok_iff]
      constructor
      · rintro ⟨c, w, hc, hw, rfl⟩
        rcases writeLast_eq_ok_iff.mp hw with ⟨old, hold, rfl⟩ | ⟨ms, k, rfl, rfl, hnone, rfl⟩
        · refine .inl ⟨old, get_snoc_eq_ok_iff.mpr ⟨c, hc, hold⟩, ?_⟩
          rw [put_append hc, put_cons hold, put_nil]
        · exact .inr ⟨p, k, ms, rfl, hc, hnone, rfl⟩
      · rintro (⟨old, hget, rfl⟩ | ⟨q, k, ms, heq, hget, hnone, rfl⟩)
        · obtain ⟨c, hc, hold⟩ := get_snoc_eq_ok_iff.mp hget
          refine ⟨c, _, hc, writeLast_of_child hold v, ?_⟩
          rw [put_append hc, put_cons hold, put_nil]
        · obtain ⟨rfl, hs⟩ := List.append_inj' heq rfl
          cases hs
          exact ⟨_, _, hget, rfl, rfl⟩

section Laws

variable {doc d v : Value} {path : Path}

/-- What was written is found. -/
theorem get_of_set (h : doc.set path v = .ok d) : d.get path = .ok v := by
  rcases set_eq_ok_iff.mp h with ⟨old, hold, rfl⟩ | ⟨p, k, ms, rfl, hget, -, rfl⟩
  · exact get_put hold v
  · rw [get_snoc_object (get_put hget _), Members.find?_insert_self]

/-- A second write at the same path leaves nothing of the first one. -/
theorem set_of_set (h : doc.set path v = .ok d) (w : Value) : d.set path w = doc.set path w := by
  rcases set_eq_ok_iff.mp h with ⟨old, hold, rfl⟩ | ⟨p, k, ms, rfl, hget, -, rfl⟩
  · rw [set_eq_put (get_put hold v), set_eq_put hold, put_put hold]
  · rw [set_snoc_object (get_put hget _), set_snoc_object hget, put_put hget,
      Members.insert_insert]

/-- Writing what is there already changes nothing. -/
theorem set_self (h : doc.get path = .ok v) : doc.set path v = .ok doc := by
  rw [set_eq_put h, put_self h]

/-- An update that cannot fail itself writes what it makes of the value that is there. -/
theorem update_of_get (h : doc.get path = .ok v) (f : Value → Value) :
    doc.update path (fun u => .ok (f u)) = doc.set path (f v) := by
  rw [set_eq_put h]
  exact update_eq_ok_iff.mpr ⟨v, f v, h, rfl, rfl⟩

end Laws

/-! ### The laws of a lens -/

/-- Looking up, writing and updating at a path obey the laws of a lens, in any document and for any path;
members keep their order in all of them. -/
theorem get_set_update (doc : Value) (path : Path) :
    (∀ v d, doc.set path v = .ok d →
        d.get path = .ok v ∧ ∀ w, d.set path w = doc.set path w) ∧
      (∀ v, doc.get path = .ok v → doc.set path v = .ok doc) ∧
      ∀ f : Value → Value,
        ((∃ d, doc.update path (fun v => .ok (f v)) = .ok d) ↔ ∃ v, doc.get path = .ok v) ∧
          ∀ v, doc.get path = .ok v →
            doc.update path (fun v => .ok (f v)) = doc.set path (f v) := by
  refine ⟨fun v d h => ⟨get_of_set h, set_of_set h⟩, fun v h => set_self h, fun f => ⟨?_, ?_⟩⟩
  · constructor
    · rintro ⟨d, hd⟩
      obtain ⟨v, -, hv, -, -⟩ := update_eq_ok_iff.mp hd
      exact ⟨v, hv⟩
    · rintro ⟨v, hv⟩
      exact ⟨_, update_eq_ok_iff.mpr ⟨v, f v, hv, rfl, rfl⟩⟩
  · exact fun v hv => update_of_get hv f

/-- A list of two objects, where the first one is reached from the end of the list and lacks the key that is
written. -/
theorem get_set_update_nested :
    let doc : Value := .object [(.str "rows", .array [.object [(.str "a", .int 1)], .object []])]
    let path : Path := [.str "rows", .int (-2), .str "b"]
    let written : Value := .object [(.str "rows",
      .array [.object [(.str "a", .int 1), (.str "b", .str "x")], .object []])]
    doc.set path (.str "x") = .ok written ∧ written.get path = .ok (.str "x") ∧
      written.set path .null = doc.set path .null ∧ written.set path (.str "x") = .ok written ∧
      written.update path (fun v => .ok (.array [v])) = written.set path (.array [.str "x"]) := by
  intro doc path written
  have hset : doc.set path (.str "x") = .ok written := rfl
  obtain ⟨hget, hagain⟩ := (get_set_update doc path).1 _ _ hset
  obtain ⟨-, hself, hupdate⟩ := get_set_update written path
  exact ⟨hset, hget, hagain .null, hself _ hget, (hupdate fun v => .array [v]).2 _ hget⟩

end SchemaForge.Value
