import SchemaForge.Proofs.Path.Separation

/-!
Where paths fail. A path resolves in a document if each of its segments is a key of the object or an index of
the list that it meets, and one that does not has a longest prefix that does. Looking up and replacing ask for
the whole path; writing and removing go to the container that the last segment leaves, and are content with an
object there. A failure tells how many segments resolve and blames the path, but a write or a removal that does
not come as far as that container blames the path to the container alone.
-/

namespace SchemaForge.Value

/-! ### Paths that resolve -/

/-- A segment as paths usually have it: a text or an integer. -/
inductive IsSegment : Value → Prop where
  | key (name : String) : IsSegment (.str name)
  | index (i : Int) : IsSegment (.int i)

/-- A path resolves in a document step by step: a segment is a key of the object that it meets, or an index of
the list, which counts from the start or, if it is negative, from the end. -/
inductive Resolves : Value → Path → Prop where
  | nil (doc : Value) : Resolves doc []
  | key {ms : Members} {k : Scalar} {v : Value} {p : Path} (member : Members.find? k ms = some v)
      (rest : Resolves v p) : Resolves (.object ms) (.scalar k :: p)
  | index {xs : List Value} {i : Int} {v : Value} {p : Path} (first : -(xs.length : Int) ≤ i)
      (last : i < xs.length) (element : xs[(fromStart xs.length i).toNat]? = some v)
      (rest : Resolves v p) : Resolves (.array xs) (.int i :: p)

/-- The first `n` segments of a path resolve, and no more of them do. -/
structure StopsAt (doc : Value) (p : Path) (n : Nat) : Prop where
  le : n ≤ p.length
  resolves : Resolves doc (p.take n)
  most : ∀ m, m ≤ p.length → Resolves doc (p.take m) → m ≤ n

theorem resolves_cons_iff {doc s : Value} {p : Path} :
    Resolves doc (s :: p) ↔ ∃ c, doc.child s = .ok (some c) ∧ Resolves c p := by
  constructor
  · intro h
    cases h with
    | key member rest => exact ⟨_, congrArg Except.ok member, rest⟩
    | @index xs i v p first last element rest =>
        have hresolved : resolveIndex xs.length i = some (fromStart xs.length i).toNat := by
          refine resolveIndex_eq_some_iff.mpr ?_
          unfold fromStart
          split <;> omega
        exact ⟨v, by simp only [child, hresolved, Option.bind_some, element], rest⟩
  · rintro ⟨c, hc, hrest⟩
    obtain ⟨ms, k, rfl, rfl, hfind⟩ | ⟨xs, i, n, rfl, rfl, hn, hv⟩ := exists_of_child hc
    · exact .key hfind hrest
    · obtain ⟨hplace, hlt⟩ := resolveIndex_eq_some_iff.mp hn
      have hbounds : -(xs.length : Int) ≤ i ∧ i < xs.length := by
        unfold fromStart at hplace
        split at hplace <;> omega
      refine .index hbounds.1 hbounds.2 ?_ hrest
      rw [hplace, Int.toNat_natCast, hv]

/-- The paths that resolve are those that lead somewhere. -/
theorem resolves_iff {p : Path} : ∀ {doc : Value}, Resolves doc p ↔ ∃ v, doc.get p = .ok v := by
  induction p with
  | nil => exact fun {doc} => ⟨fun _ => ⟨doc, rfl⟩, fun _ => .nil doc⟩
  | cons s p ih =>
      intro doc
      simp only [resolves_cons_iff, get_cons_eq_ok_iff, ih]
      constructor
      · rintro ⟨c, hc, v, hv⟩
        exact ⟨v, c, hc, hv⟩
      · rintro ⟨v, c, hc, hv⟩
        exact ⟨c, hc, v, hv⟩

/-- A text or an integer leads to a value or to nothing; it cannot be used wrongly. -/
theorem child_of_isSegment {s : Value} (hs : IsSegment s) (c : Value) :
    ∃ found, c.child s = .ok found := by
  cases hs with
  | key name => cases c <;> exact ⟨_, rfl⟩
  | index i => cases c <;> exact ⟨_, rfl⟩

section StopsAt

variable {doc c s : Value} {p : Path} {n : Nat}

theorem stopsAt_zero (h : doc.child s = .ok none) : StopsAt doc (s :: p) 0 where
  le := Nat.zero_le _
  resolves := .nil doc
  most := by
    intro m _ hm
    cases m with
    | zero => exact Nat.le_refl 0
    | succ m =>
        obtain ⟨v, hv, -⟩ := resolves_cons_iff.mp hm
        rw [h] at hv
        cases hv

theorem StopsAt.succ (h : StopsAt c p n) (hc : doc.child s = .ok (some c)) :
    StopsAt doc (s :: p) (n + 1) where
  le := Nat.succ_le_succ h.le
  resolves := resolves_cons_iff.mpr ⟨c, hc, h.resolves⟩
  most := by
    intro m hm hresolves
    cases m with
    | zero => exact Nat.zero_le _
    | succ m =>
        obtain ⟨v, hv, hrest⟩ := resolves_cons_iff.mp hresolves
        obtain rfl : v = c := by simpa [hc] using hv.symm
        exact Nat.succ_le_succ (h.most m (Nat.le_of_succ_le_succ hm) hrest)

/-- A longer path stops where its beginning does. -/
theorem StopsAt.append (h : StopsAt doc p n) (hn : n < p.length) (q : Path) : StopsAt doc (p ++ q) n where
  le := by
    rw [List.length_append]
    omega
  resolves := by
    rw [List.take_append_of_le_length h.le]
    exact h.resolves
  most := by
    intro m hm hresolves
    by_cases hle : m ≤ p.length
    · rw [List.take_append_of_le_length hle] at hresolves
      exact h.most m hle hresolves
    · -- What resolves beyond the beginning would make all of the beginning resolve.
      obtain ⟨v, hv⟩ := resolves_iff.mp hresolves
      rw [List.take_append, List.take_of_length_le (by omega)] at hv
      obtain ⟨c, hc, -⟩ := get_append_eq_ok_iff.mp hv
      have hall := h.most p.length (Nat.le_refl _) (by rw [List.take_length]; exact resolves_iff.mpr ⟨c, hc⟩)
      omega

theorem stopsAt_last (hp : doc.get p = .ok c) (h : c.child s = .ok none) :
    StopsAt doc (p ++ [s]) p.length := by
  induction p generalizing doc with
  | nil =>
      cases hp
      exact stopsAt_zero h
  | cons t p ih =>
      obtain ⟨d, hd, hp⟩ := get_cons_eq_ok_iff.mp hp
      exact (ih hp).succ hd

end StopsAt

/-! ### Looking up and replacing -/

/-- A walk that fails blames the whole path and tells how far it came. -/
theorem exists_stopsAt_of_getFrom {whole p : Path} (segments : ∀ s ∈ p, IsSegment s) :
    ∀ {depth : Nat} {doc : Value} {fault : Fault}, getFrom whole depth doc p = .error fault →
      ∃ n, StopsAt doc p n ∧ n < p.length ∧ fault = .pathNotFound whole (depth + n) := by
  induction p with
  | nil =>
      intro depth doc fault h
      cases h
  | cons s p ih =>
      intro depth doc fault h
      obtain ⟨found, hfound⟩ := child_of_isSegment (segments s List.mem_cons_self) doc
      rw [getFrom, childAt, hfound, ok_bind] at h
      cases found with
      | none =>
          cases h
          exact ⟨0, stopsAt_zero hfound, Nat.succ_pos _, rfl⟩
      | some c =>
          obtain ⟨n, hstops, hn, rfl⟩ := ih (fun t ht => segments t (List.mem_cons_of_mem _ ht)) h
          refine ⟨n + 1, hstops.succ hfound, Nat.succ_lt_succ hn, ?_⟩
          rw [Nat.add_assoc, Nat.add_comm 1 n]

theorem updateFrom_eq (whole : Path) (f : Value → Except Fault Value) {p : Path} :
    ∀ (depth : Nat) (doc : Value), updateFrom whole f depth doc p =
      getFrom whole depth doc p >>= fun v => f v >>= fun w => .ok (doc.put p w) := by
  induction p with
  | nil =>
      intro depth doc
      rw [updateFrom, getFrom, ok_bind]
      cases f doc <;> simp
  | cons s p ih =>
      intro depth doc
      rw [updateFrom, getFrom]
      cases hchild : childAt whole depth doc s with
      | error fault => rfl
      | ok c =>
          rw [ok_bind, ok_bind, ih]
          cases getFrom whole (depth + 1) c p with
          | error fault => rfl
          | ok v =>
              rw [ok_bind, ok_bind]
              cases f v with
              | error fault => rfl
              | ok w => simp [put_cons (childAt_eq_ok_iff.mp hchild)]

/-- Replacing is looking up, working out another value and putting it there. -/
theorem update_eq (doc : Value) (p : Path) (f : Value → Except Fault Value) :
    doc.update p f = doc.get p >>= fun v => f v >>= fun w => .ok (doc.put p w) :=
  updateFrom_eq p f 0 doc

/-- A call succeeds exactly under a condition, and each failure tells how many segments of the path `p` resolve.
Which path it blames may depend on how many these are. -/
structure FailsExactly (doc : Value) (p : Path) (blamed : Nat → Path) (r : Except Fault Value)
    (condition : Prop) : Prop where
  succeeds : (∃ v, r = .ok v) ↔ condition
  fails : ∀ fault, r = .error fault → ∃ n, StopsAt doc p n ∧ fault = .pathNotFound (blamed n) n

section Whole

variable {p : Path} (segments : ∀ s ∈ p, IsSegment s) (doc : Value)

include segments

theorem failsExactly_get : FailsExactly doc p (fun _ => p) (doc.get p) (Resolves doc p) where
  succeeds := resolves_iff.symm
  fails := by
    intro fault h
    obtain ⟨n, hstops, -, rfl⟩ := exists_stopsAt_of_getFrom segments h
    exact ⟨n, hstops, by rw [Nat.zero_add]⟩

theorem failsExactly_update (f : Value → Value) :
    FailsExactly doc p (fun _ => p) (doc.update p fun v => .ok (f v)) (Resolves doc p) where
  succeeds := by
    rw [update_eq, resolves_iff]
    cases doc.get p <;> simp
  fails := by
    intro fault h
    rw [update_eq] at h
    cases hget : doc.get p with
    | error _ =>
        rw [hget] at h
        cases h
        exact (failsExactly_get segments doc).fails _ hget
    | ok v =>
        rw [hget] at h
        cases h

end Whole

/-! ### Writing and removing -/

/-- The path that is blamed where the container of the last segment is looked for on its own: the path to that
container, if it is not found. -/
def blamedForLast (p : Path) (n : Nat) : Path := if n + 1 < p.length then p.dropLast else p

/-- What is done with the last segment `s` of the path `whole` in the container that it leaves: an object is
always good for it, and other containers if the segment leads somewhere in them. -/
structure TakesLast (whole : Path) (s : Value) (f : Value → Except Fault Value) : Prop where
  succeeds : ∀ c, (∃ d, f c = .ok d) ↔ (∃ ms, c = .object ms) ∨ ∃ v, c.child s = .ok (some v)
  fails : ∀ c fault, f c = .error fault → fault = .pathNotFound whole (whole.length - 1)

section Last

variable {s : Value} (hs : IsSegment s) (whole : Path)

include hs

/-- An array is good for a segment that leads to one of its elements. -/
theorem childAt_array (xs : List Value) :
    (∃ v, childAt whole (whole.length - 1) (.array xs) s = .ok v ∧ (Value.array xs).child s = .ok (some v)) ∨
      childAt whole (whole.length - 1) (.array xs) s = .error (.pathNotFound whole (whole.length - 1)) ∧
        (Value.array xs).child s = .ok none := by
  obtain ⟨found, hfound⟩ := child_of_isSegment hs (.array xs)
  rw [childAt, hfound]
  cases found with
  | none => exact .inr ⟨rfl, rfl⟩
  | some v => exact .inl ⟨v, rfl, rfl⟩

theorem takesLast_writeLast (v : Value) : TakesLast whole s (writeLast whole s v) where
  succeeds := by
    intro c
    cases c with
    | scalar k => simp [writeLast, child]
    | object ms => cases hs <;> simp [writeLast]
    | array xs =>
        obtain ⟨w, hw, hchild⟩ | ⟨hw, hchild⟩ := childAt_array hs whole xs
        · simp [writeLast, hw, hchild]
        · simp [writeLast, hw, hchild]
  fails := by
    intro c fault h
    cases c with
    | scalar k =>
        cases h
        rfl
    | object ms => cases hs <;> simp [writeLast] at h
    | array xs =>
        obtain ⟨w, hw, -⟩ | ⟨hw, -⟩ := childAt_array hs whole xs
        · simp [writeLast, hw] at h
        · simpa [writeLast, hw] using h.symm

theorem takesLast_eraseLast : TakesLast whole s (eraseLast whole s) where
  succeeds := by
    intro c
    cases c with
    | scalar k => simp [eraseLast, child]
    | object ms => simp [eraseLast]
    | array xs =>
        obtain ⟨w, hw, hchild⟩ | ⟨hw, hchild⟩ := childAt_array hs whole xs
        · cases hs <;> simp [eraseLast, hw, hchild]
        · simp [eraseLast, hw, hchild]
  fails := by
    intro c fault h
    cases c with
    | scalar k =>
        cases h
        rfl
    | object ms => simp [eraseLast] at h
    | array xs =>
        obtain ⟨w, hw, -⟩ | ⟨hw, -⟩ := childAt_array hs whole xs
        · cases hs <;> simp [eraseLast, hw] at h
        · simpa [eraseLast, hw] using h.symm

end Last

/-- What is done with the last segment of a path fails where the path to its container does, or there. -/
theorem TakesLast.failsExactly {p : Path} {s : Value} {f : Value → Except Fault Value}
    (h : TakesLast (p ++ [s]) s f) (segments : ∀ t ∈ p ++ [s], IsSegment t) (doc : Value) :
    FailsExactly doc (p ++ [s]) (blamedForLast (p ++ [s])) (doc.update p f)
      (Resolves doc (p ++ [s]) ∨ ∃ ms, doc.get p = .ok (.object ms)) := by
  have hp : ∀ t ∈ p, IsSegment t := fun t ht => segments t (List.mem_append_left _ ht)
  have hlast : IsSegment s := segments s (List.mem_append_right _ List.mem_cons_self)
  rw [update_eq, resolves_iff]
  simp only [get_snoc_eq_ok_iff]
  cases hget : doc.get p with
  | error fault =>
      refine ⟨by simp, fun _ heq => ?_⟩
      cases heq
      obtain ⟨n, hstops, hn, rfl⟩ := exists_stopsAt_of_getFrom hp hget
      refine ⟨n, hstops.append hn [s], ?_⟩
      rw [blamedForLast, if_pos (by simpa using hn), List.dropLast_concat, Nat.zero_add]
  | ok c =>
      have hcondition : (∃ v c', Except.ok (ε := Fault) c = .ok c' ∧ c'.child s = .ok (some v)) ∨
          (∃ ms, Except.ok (ε := Fault) c = .ok (.object ms)) ↔ ∃ d, f c = .ok d := by
        rw [h.succeeds c]
        simp [or_comm]
      rw [ok_bind, hcondition]
      cases hf : f c with
      | ok d => exact ⟨by simp, fun _ heq => by cases heq⟩
      | error fault =>
          refine ⟨by simp, fun _ heq => ?_⟩
          cases heq
          -- A container that is no good for the segment leads nowhere by it.
          obtain ⟨found, hfound⟩ := child_of_isSegment hlast c
          have hnone : c.child s = .ok none := by
            cases found with
            | none => exact hfound
            | some v =>
                obtain ⟨d, hd⟩ := (h.succeeds c).mpr (.inr ⟨v, hfound⟩)
                rw [hf] at hd
                cases hd
          refine ⟨p.length, stopsAt_last hget hnone, ?_⟩
          rw [h.fails c _ hf, blamedForLast, if_neg (by simp), List.length_append]
          rfl

section Outermost

variable {p : Path} (segments : ∀ s ∈ p, IsSegment s) (doc : Value)

include segments

theorem failsExactly_set (v : Value) :
    FailsExactly doc p (blamedForLast p) (doc.set p v)
      (p = [] ∨ Resolves doc p ∨ ∃ ms, doc.get p.dropLast = .ok (.object ms)) := by
  induction p using List.reverseRecOn with
  | nil => exact ⟨⟨fun _ => .inl rfl, fun _ => ⟨v, rfl⟩⟩, fun _ h => by cases h⟩
  | append_singleton p s _ =>
      have hs : IsSegment s := segments s (List.mem_append_right _ List.mem_cons_self)
      rw [set_snoc, List.dropLast_concat]
      obtain ⟨hsucceeds, hfails⟩ := (takesLast_writeLast hs (p ++ [s]) v).failsExactly segments doc
      exact ⟨by rw [hsucceeds]; simp, hfails⟩

theorem failsExactly_remove :
    FailsExactly doc p (blamedForLast p) (doc.remove p)
      (p ≠ [] ∧ (Resolves doc p ∨ ∃ ms, doc.get p.dropLast = .ok (.object ms))) := by
  induction p using List.reverseRecOn with
  | nil =>
      refine ⟨by simp, fun fault h => ⟨0, ⟨Nat.le_refl 0, .nil doc, fun m hm _ => hm⟩, ?_⟩⟩
      cases h
      rfl
  | append_singleton p s _ =>
      have hs : IsSegment s := segments s (List.mem_append_right _ List.mem_cons_self)
      rw [remove_snoc, List.dropLast_concat]
      obtain ⟨hsucceeds, hfails⟩ := (takesLast_eraseLast hs (p ++ [s])).failsExactly segments doc
      exact ⟨by rw [hsucceeds]; simp, hfails⟩

end Outermost

/-- A segment that a message can show: a text, or an integer of no more digits than a number may be written with.
A failure at a path with a longer integer is none of a path but one of writing that integer. -/
inductive IsShown : Value → Prop where
  | key (name : String) : IsShown (.str name)
  | index {i : Int} (fits : (Numeric.digits i.natAbs).length ≤ Numeric.mostDigits) : IsShown (.int i)

theorem IsShown.isSegment {s : Value} (h : IsShown s) : IsSegment s := by
  cases h with
  | key name => exact .key name
  | index _ => exact .index _

/-- Path failures are exact. Looking up and replacing succeed for the paths that resolve; writing and removing
for those too, and where only a member is missing that an object could have; writing takes the empty path as
well. Each failure is that of a path and tells how many of its segments resolve; the path is the whole one but
where a write or a removal does not find the container of the last segment. -/
theorem failures_exact {p : Path} (shown : ∀ s ∈ p, IsShown s) (doc : Value) :
    FailsExactly doc p (fun _ => p) (doc.get p) (Resolves doc p) ∧
      (∀ f : Value → Value,
        FailsExactly doc p (fun _ => p) (doc.update p fun v => .ok (f v)) (Resolves doc p)) ∧
      (∀ v, FailsExactly doc p (blamedForLast p) (doc.set p v)
        (p = [] ∨ Resolves doc p ∨ ∃ ms, doc.get p.dropLast = .ok (.object ms))) ∧
      FailsExactly doc p (blamedForLast p) (doc.remove p)
        (p ≠ [] ∧ (Resolves doc p ∨ ∃ ms, doc.get p.dropLast = .ok (.object ms))) := by
  have segments : ∀ s ∈ p, IsSegment s := fun s hs => (shown s hs).isSegment
  exact ⟨failsExactly_get segments doc, failsExactly_update segments doc, failsExactly_set segments doc,
    failsExactly_remove segments doc⟩

def lastRow : Value := .object [(.str "rows", .array [.null, .object [(.str "a", .int 1)]])]

def beyondLastRow : Path := [.str "rows", .int (-1), .str "a", .str "b", .int 0]

/-- Of the five segments three resolve. All of the path is looked for and blamed by a look-up, and all of it but
its last segment by a write; what ends with a further key of the row can be written and removed. -/
theorem failures_exact_rows :
    (∀ s ∈ beyondLastRow, IsShown s) ∧
      (∃ n, StopsAt lastRow beyondLastRow n ∧
        Fault.pathNotFound beyondLastRow 3 = .pathNotFound beyondLastRow n) ∧
      (∃ n, StopsAt lastRow beyondLastRow n ∧
        Fault.pathNotFound beyondLastRow.dropLast 3 = .pathNotFound (blamedForLast beyondLastRow n) n) ∧
      (∃ d, lastRow.set [.str "rows", .int (-1), .str "b"] .null = .ok d) ∧
      ∃ d, lastRow.remove [.str "rows", .int (-1), .str "b"] = .ok d := by
  have shown : ∀ s ∈ beyondLastRow, IsShown s := by
    simp only [beyondLastRow, List.forall_mem_cons, List.not_mem_nil, false_imp_iff, implies_true, and_true]
    exact ⟨.key _, .index (by decide), .key _, .key _, .index (by decide)⟩
  obtain ⟨hget, -, hset, -⟩ := failures_exact shown lastRow
  have row : ∀ s ∈ [Value.str "rows", .int (-1), .str "b"], IsShown s := by
    simp only [List.forall_mem_cons, List.not_mem_nil, false_imp_iff, implies_true, and_true]
    exact ⟨.key _, .index (by decide), .key _⟩
  obtain ⟨-, -, hwrite, hremove⟩ := failures_exact row lastRow
  exact ⟨shown, hget.fails _ rfl, (hset .null).fails _ rfl,
    (hwrite .null).succeeds.mpr (.inr (.inr ⟨_, rfl⟩)),
    hremove.succeeds.mpr ⟨by simp, .inr ⟨_, rfl⟩⟩⟩

/-- A write or a removal that does not come as far as the last segment does not blame the whole path, as a
look-up does. -/
theorem set_blames_beginning :
    (Value.object []).get [.str "missing", .str "key"] =
        .error (.pathNotFound [.str "missing", .str "key"] 0) ∧
      (Value.object []).set [.str "missing", .str "key"] (.int 1) =
        .error (.pathNotFound [.str "missing"] 0) ∧
      (Value.object []).remove [.str "missing", .str "key"] = .error (.pathNotFound [.str "missing"] 0) ∧
      ∀ n, Fault.pathNotFound [.str "missing"] 0 ≠ .pathNotFound [.str "missing", .str "key"] n :=
  ⟨rfl, rfl, rfl, fun n h => by simp at h⟩

end SchemaForge.Value
