import SchemaForge.Inference.Widen
import SchemaForge.Proofs.Inference.Describes

/-!
The two merges in terms of samples: merging one more type into the types seen so far gives the types of
all samples, and narrowing the names that are required gives the keys that all samples carry.
-/

namespace SchemaForge.Inference

open Sample (types commonKeys)

/-! ### Types -/

theorem addDistinct_str {seen : List String} (hseen : seen.Nodup) (xs : List String) :
    addDistinct (seen.map .str) (xs.map .str) = ((seen ++ xs).eraseDups).map .str := by
  induction xs generalizing seen with
  | nil => simp [addDistinct, eraseDups_of_nodup hseen]
  | cons x xs ih =>
      have hoccurs : (Value.str x).occurs (seen.map .str) = true ↔ x ∈ seen := by
        simp [Value.occurs_str_iff]
      rw [List.map_cons, addDistinct]
      by_cases hx : x ∈ seen
      · rw [if_pos (hoccurs.mpr hx), ih hseen]
        simp [List.eraseDups_append, List.cons_removeAll, hx]
      · have hnodup : (seen ++ [x]).Nodup := by
          refine List.nodup_append.mpr ⟨hseen, List.nodup_singleton x, ?_⟩
          intro a ha b hb hab
          exact hx (List.mem_singleton.mp hb ▸ hab ▸ ha)
        have happend : seen.map Value.str ++ [.str x] = (seen ++ [x]).map .str := by simp
        rw [if_neg (fun h => hx (hoccurs.mp h)), happend, ih hnodup]
        simp

theorem typeList_typeEntry (ts : List String) :
    typeList ((typeEntry ts).getD .null) = .ok (ts.map .str) := by
  rcases ts with _ | ⟨t, _ | ⟨u, ts⟩⟩
  · rfl
  · rfl
  · rfl

theorem typeEntry_eq_some {ts : List String} (h : ts ≠ []) :
    typeEntry ts = some (ofTypeList (ts.map .str)) := by
  rcases ts with _ | ⟨t, _ | ⟨u, ts⟩⟩
  · exact absurd rfl h
  · rfl
  · rfl

/-- Merging the type of one more sample. -/
theorem mergeTypes_typeEntry (vs : List Sample) (v : Sample) :
    ∃ t, mergeTypes ((typeEntry (types vs)).getD .null) (.str v.type) = .ok t ∧
      typeEntry (types (vs ++ [v])) = some t := by
  have hne : types (vs ++ [v]) ≠ [] := by
    rw [ne_eq, Sample.types_eq_nil_iff]
    simp
  refine ⟨ofTypeList ((types (vs ++ [v])).map .str), ?_, typeEntry_eq_some hne⟩
  have hdistinct : addDistinct [] ((types vs).map .str ++ [.str v.type]) =
      (types (vs ++ [v])).map .str := by
    have h := addDistinct_str List.nodup_nil (types vs ++ [v.type])
    rw [List.map_append] at h
    rw [Sample.types_append_singleton]
    simpa [eraseDups_append_singleton, eraseDups_of_nodup (Sample.nodup_types vs)] using h
  rw [mergeTypes, typeList_typeEntry, ok_bind, typeList, ok_bind, hdistinct, pure_eq_ok]

/-- The types of elements are gathered in the order in which they are first seen. -/
theorem elementKinds_types (ws xs : List Sample) :
    elementKinds (types ws) (xs.map Sample.kind) = types (ws ++ xs) := by
  induction xs generalizing ws with
  | nil => simp [elementKinds]
  | cons x xs ih =>
      have hstep : (if (types ws).contains x.type then types ws else types ws ++ [x.type]) =
          types (ws ++ [x]) := by
        rw [Sample.types_append_singleton]
        by_cases h : x.type ∈ types ws
        · rw [if_pos h, if_pos (List.contains_iff_mem.mpr h)]
        · rw [if_neg h, if_neg (fun hc => h (List.contains_iff_mem.mp hc))]
      change elementKinds (if (types ws).contains x.type then types ws else types ws ++ [x.type])
        (xs.map Sample.kind) = _
      rw [hstep, ih]
      simp

/-! ### Required names -/

/-- The names that some objects require so far. Before the first object nothing is known. -/
def requiredNames : List Sample → Option (List Value)
  | [] => none
  | ws => some ((commonKeys ws).map .scalar)

@[simp] theorem requiredNames_nil : requiredNames [] = none := rfl

theorem requiredNames_of_ne_nil {ws : List Sample} (h : ws ≠ []) :
    requiredNames ws = some ((commonKeys ws).map .scalar) := by
  cases ws with
  | nil => exact absurd rfl h
  | cons w ws => rfl

theorem keepNames_scalar (test : Value → Except Fault Bool) (p : Scalar → Bool) (ks : List Scalar)
    (h : ∀ k ∈ ks, test (.scalar k) = .ok (p k)) :
    keepNames test (ks.map .scalar) = .ok ((ks.filter p).map .scalar) := by
  induction ks with
  | nil => rfl
  | cons k ks ih =>
      have hrest := ih fun l hl => h l (List.mem_cons_of_mem _ hl)
      rw [List.map_cons, keepNames, h k List.mem_cons_self, ok_bind, hrest, ok_bind]
      cases hp : p k <;> simp [hp]

/-- One more object drops the names that it does not carry; the first one starts with all of its own. -/
theorem narrowRequired_requiredNames {ws : List Sample} (hws : ∀ w ∈ ws, w.IsJson) (x : Sample) :
    narrowRequired (requiredNames ws) x.keys = .ok ((commonKeys (ws ++ [x])).map .scalar) := by
  by_cases hnil : ws = []
  · subst hnil
    simp [narrowRequired, Sample.commonKeys_singleton]
  · rw [requiredNames_of_ne_nil hnil, narrowRequired, Sample.commonKeys_append_singleton hnil]
    refine keepNames_scalar _ _ _ fun k hk => ?_
    have htext : k.IsText := Sample.isText_of_mem_commonKeys hws hk
    have hany : x.keys.any (·.same k) = x.keys.contains k := by
      rw [Bool.eq_iff_iff]
      simp [Scalar.same_iff_of_isText htext]
    simp [hany]

end SchemaForge.Inference
