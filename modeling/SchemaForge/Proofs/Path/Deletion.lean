import SchemaForge.Proofs.Path.Failures

/-!
Removing what a path leads to. A member that is removed from an object is gone, the others keep their values and
their order, and what lies apart from the path is as it was; a member that is not there is removed without
effect, so a new one comes and goes again. An element that is removed from a list lets the later ones move up by
one place, so there only what lies apart from the list is sure to be found where it was.
-/

namespace SchemaForge.Value

/-- A text or an integer is a key, which members have that stand for the same one. -/
theorem exists_key_of_isSegment {s : Value} (hs : IsSegment s) :
    ∃ k, s = .scalar k ∧ ∀ l : Scalar, (Value.scalar l).equals s = l.same k := by
  cases hs with
  | key name =>
      refine ⟨.str name, rfl, fun l => ?_⟩
      rw [Bool.eq_iff_iff, equals_str_iff, Scalar.same_str_iff, Value.scalar.injEq]
  | index i =>
      refine ⟨.int i, rfl, fun l => ?_⟩
      cases hsame : l.same (.int i) with
      | false => simp [equals, same, hsame]
      | true =>
          have hnumber : l ≠ .float .nan := by
            rintro rfl
            simp [Scalar.same, Scalar.canonical, Numeric.Binary64.toInt?] at hsame
          simpa [equals, same, hsame] using hnumber

/-! ### Members -/

/-- A document in which the object of the members `ms` at `p` has lost the one at `s`. -/
structure MemberRemoved (doc : Value) (p : Path) (s : Value) (ms : Members) (d : Value) : Prop where
  others : ∃ ns, d.get p = .ok (.object ns) ∧
    Members.keys ns = (Members.keys ms).filter (fun k => !(Value.scalar k).same s) ∧
    ∀ k, (Value.scalar k).same s = false → Members.find? k ns = Members.find? k ms
  gone : ¬ Resolves d (p ++ [s])
  apart : ∀ q, Diverge doc (p ++ [s]) q → d.get q = doc.get q
  again : d.remove (p ++ [s]) = .ok d
  absent : ¬ Resolves doc (p ++ [s]) →
    d = doc ∧ ∀ v, (doc.set (p ++ [s]) v >>= fun e => e.remove (p ++ [s])) = .ok doc

section Member

variable {doc : Value} {p : Path} {ms : Members}

theorem remove_snoc_eq_erase (h : doc.get p = .ok (.object ms)) {s : Value} {k : Scalar}
    (hk : ∀ l : Scalar, (Value.scalar l).equals s = l.same k) :
    doc.remove (p ++ [s]) = .ok (doc.put p (.object (Members.erase k ms))) := by
  rw [remove_snoc_object h]
  simp only [hk]
  rfl

/-- What another member leads to is found as before. -/
theorem get_put_erase_of_diverge (h : doc.get p = .ok (.object ms)) {k : Scalar} {q : Path}
    (diverge : Diverge doc (p ++ [.scalar k]) q) :
    (doc.put p (.object (Members.erase k ms))).get q = doc.get q := by
  refine getFrom_put_of_diverge (List.cons_ne_nil [.scalar k] []) (fun r hr whole depth => ?_) h
    (by simpa using diverge) q 0
  cases hr _ List.mem_cons_self with
  | @here _ _ t _ r apart =>
      have hchild : (Value.object (Members.erase k ms)).child t = (Value.object ms).child t := by
        cases t with
        | scalar l =>
            have hkl : k.same l = false := Bool.eq_false_iff.mpr fun hkl => apart (place_object_eq_iff.mpr hkl)
            simp only [child, key_scalar, ok_bind, Members.find?_erase_of_not_same hkl]
        | _ => rfl
      simp only [getFrom, childAt, hchild]
  | deeper _ _ diverge => cases diverge

theorem memberRemoved {s : Value} (hs : IsSegment s) (h : doc.get p = .ok (.object ms)) :
    ∃ d, doc.remove (p ++ [s]) = .ok d ∧ MemberRemoved doc p s ms d := by
  obtain ⟨k, rfl, hk⟩ := exists_key_of_isSegment hs
  have hafter := get_put h (.object (Members.erase k ms))
  have hnone : Members.has k (Members.erase k ms) = false := by
    rw [Members.has, Members.find?_erase_self]
    rfl
  refine ⟨_, remove_snoc_eq_erase h hk, ?_⟩
  constructor
  case others =>
    refine ⟨_, hafter, Members.keys_erase k ms, fun l hl => ?_⟩
    rw [same, Scalar.same_comm] at hl
    exact Members.find?_erase_of_not_same hl ms
  case gone =>
    rw [resolves_iff]
    rintro ⟨v, hv⟩
    rw [get_snoc_object hafter, Members.find?_erase_self] at hv
    cases hv
  case apart => exact fun q => get_put_erase_of_diverge h
  case again =>
    rw [remove_snoc_eq_erase hafter hk, Members.erase_of_not_has hnone, put_put h]
  case absent =>
    intro hmissing
    have hfree : Members.has k ms = false := by
      rw [Members.has, Option.isSome_eq_false_iff, Option.isNone_iff_eq_none]
      cases hfind : Members.find? k ms with
      | none => rfl
      | some v => exact absurd (resolves_iff.mpr ⟨v, (get_snoc_object h k).mpr hfind⟩) hmissing
    refine ⟨by rw [Members.erase_of_not_has hfree, put_self h], fun v => ?_⟩
    -- The new member comes to the end, and goes from there.
    have hlast : Members.erase k (Members.insert k v ms) = ms := by
      rw [Members.insert_of_not_has hfree, Members.erase_append, Members.erase_of_not_has hfree]
      simp [Members.erase]
    rw [set_snoc_object h, ok_bind, remove_snoc_eq_erase (get_put h _) hk, hlast, put_put h, put_self h]

end Member

/-! ### Elements -/

/-- A document in which the list of the elements `xs` at `p` has lost the one at the position `n`. -/
structure ElementRemoved (doc : Value) (p : Path) (xs : List Value) (n : Nat) (d : Value) : Prop where
  others : ∃ ys, d.get p = .ok (.array ys) ∧ ys.length + 1 = xs.length ∧
    (∀ j, j < n → ys[j]? = xs[j]?) ∧ ∀ j, n ≤ j → ys[j]? = xs[j + 1]?
  apart : ∀ q, Diverge doc p q → d.get q = doc.get q

theorem elementRemoved {doc : Value} {p : Path} {xs : List Value} {i : Int} {n : Nat}
    (h : doc.get p = .ok (.array xs)) (hn : resolveIndex xs.length i = some n) :
    ∃ d, doc.remove (p ++ [.int i]) = .ok d ∧ ElementRemoved doc p xs n d := by
  have hlt := resolveIndex_lt hn
  have hchild : (Value.array xs).child (.int i) = .ok (some xs[n]) := by
    simp only [child, hn, Option.bind_some, List.getElem?_eq_getElem hlt]
  have herase : eraseLast (p ++ [.int i]) (.int i) (.array xs) = .ok (.array (xs.eraseIdx n)) := by
    simp only [eraseLast, childAt_eq_ok_iff.mpr hchild, ok_bind, hn, Option.elim_some, pure_eq_ok]
  refine ⟨doc.put p (.array (xs.eraseIdx n)), ?_, ?_, fun q diverge => get_put_of_diverge diverge h _⟩
  · rw [remove_snoc]
    exact update_eq_ok_iff.mpr ⟨_, _, h, herase, rfl⟩
  · refine ⟨_, get_put h _, ?_, fun j hj => ?_, fun j hj => ?_⟩
    · rw [List.length_eraseIdx_of_lt hlt]
      omega
    · exact List.getElem?_eraseIdx_of_lt hj
    · exact List.getElem?_eraseIdx_of_ge hj

/-- Removing takes away exactly one place. In an object that is the member of a key, be it there or not; in a
list it is the element that an index points to. -/
theorem remove_exact (doc : Value) (p : Path) {s : Value} (hs : IsSegment s) :
    (∀ ms, doc.get p = .ok (.object ms) →
        ∃ d, doc.remove (p ++ [s]) = .ok d ∧ MemberRemoved doc p s ms d) ∧
      ∀ xs i n, doc.get p = .ok (.array xs) → s = .int i → resolveIndex xs.length i = some n →
        ∃ d, doc.remove (p ++ [s]) = .ok d ∧ ElementRemoved doc p xs n d := by
  refine ⟨fun ms h => memberRemoved hs h, fun xs i n h hi hn => ?_⟩
  subst hi
  exact elementRemoved h hn

/-- The member of the last row goes, one that is not there does without effect, and the row moves up when the
element before it goes. -/
theorem remove_exact_rows :
    (∃ d, lastRow.remove [.str "rows", .int (-1), .str "a"] = .ok d ∧
        d.get [.str "rows", .int 0] = .ok .null ∧ ¬ Resolves d [.str "rows", .int (-1), .str "a"]) ∧
      lastRow.remove [.str "rows", .int (-1), .str "b"] = .ok lastRow ∧
      ∃ d ys, lastRow.remove [.str "rows", .int (-2)] = .ok d ∧ d.get [.str "rows"] = .ok (.array ys) ∧
        ys[0]? = some (.object [(.str "a", .int 1)]) := by
  have hrow : lastRow.get [.str "rows", .int (-1)] = .ok (.object [(.str "a", .int 1)]) := rfl
  refine ⟨?_, ?_, ?_⟩
  · obtain ⟨d, hd, removed⟩ :=
      (remove_exact lastRow [.str "rows", .int (-1)] (.key "a")).1 _ hrow
    have apart : Diverge lastRow [.str "rows", .int (-1), .str "a"] [.str "rows", .int 0] :=
      .deeper rfl rfl (.here _ _ (by simp [place, fromStart]))
    exact ⟨d, hd, removed.apart _ apart, removed.gone⟩
  · obtain ⟨d, hd, removed⟩ :=
      (remove_exact lastRow [.str "rows", .int (-1)] (.key "b")).1 _ hrow
    have missing : ¬ Resolves lastRow [.str "rows", .int (-1), .str "b"] := by
      rw [resolves_iff]
      rintro ⟨v, hv⟩
      cases hv
    rwa [(removed.absent missing).1] at hd
  · obtain ⟨d, hd, removed⟩ :=
      (remove_exact lastRow [.str "rows"] (.index (-2))).2 _ _ 0 rfl rfl rfl
    obtain ⟨ys, hys, -, -, hlater⟩ := removed.others
    exact ⟨d, ys, hd, hys, hlater 0 (Nat.le_refl 0)⟩

end SchemaForge.Value
