import Mathlib.Data.List.Perm.Subperm
import SchemaForge.Inference.Variants
import SchemaForge.Proofs.Lists
import SchemaForge.Proofs.Value.Json

/-!
Values that are alike differ in the order of members alone. What is found in one of two objects that
are alike is found in the other one, up to likeness.
-/

namespace SchemaForge.Value

theorem alikeElements_iff {xs ys : List Value} :
    alikeElements xs ys = true ↔ List.Forall₂ (fun x y => x.alike y = true) xs ys := by
  induction xs generalizing ys with
  | nil => cases ys <;> simp [alikeElements]
  | cons x xs ih => cases ys <;> simp [alikeElements, ih]

theorem alikeMembers_iff {ms ns : Members} :
    alikeMembers ms ns = true ↔
      ∀ m ∈ ms, ∃ w, Members.find? m.1 ns = some w ∧ m.2.alike w = true := by
  induction ms with
  | nil => simp [alikeMembers]
  | cons m ms ih =>
      obtain ⟨k, v⟩ := m
      rw [alikeMembers, Bool.and_eq_true, ih, List.forall_mem_cons]
      cases Members.find? k ns <;> simp

theorem alike_str_iff {s : String} {w : Value} : (Value.str s).alike w = true ↔ w = .str s := by
  cases w <;> simp [alike, eq_comm]

theorem alike_scalar_iff {s : Scalar} {w : Value} :
    (Value.scalar s).alike w = true ↔ w = .scalar s := by
  cases w <;> simp [alike, eq_comm]

theorem alike_array_iff {xs ys : List Value} :
    (Value.array xs).alike (.array ys) = true ↔
      List.Forall₂ (fun x y => x.alike y = true) xs ys := by
  rw [alike, alikeElements_iff]

theorem alike_object_iff {ms ns : Members} :
    (Value.object ms).alike (.object ns) = true ↔ ms.length = ns.length ∧
      ∀ m ∈ ms, ∃ w, Members.find? m.1 ns = some w ∧ m.2.alike w = true := by
  rw [alike, Bool.and_eq_true, decide_eq_true_eq, alikeMembers_iff]

theorem exists_of_alike_array {xs : List Value} {w : Value}
    (h : (Value.array xs).alike w = true) :
    ∃ ys, w = .array ys ∧ List.Forall₂ (fun x y => x.alike y = true) xs ys := by
  cases w with
  | array ys => exact ⟨ys, rfl, alike_array_iff.mp h⟩
  | _ => simp [alike] at h

theorem exists_of_alike_object {ms : Members} {w : Value}
    (h : (Value.object ms).alike w = true) :
    ∃ ns, w = .object ns ∧ ms.length = ns.length ∧
      ∀ m ∈ ms, ∃ v, Members.find? m.1 ns = some v ∧ m.2.alike v = true := by
  cases w with
  | object ns => exact ⟨ns, rfl, alike_object_iff.mp h⟩
  | _ => simp [alike] at h

section Objects

variable {ms ns : Members} (hms : (Value.object ms).IsJson)
  (h : (Value.object ms).alike (.object ns) = true)

include hms h

/-- What is found in an object is found in one that is like it. -/
theorem alike_find? {k : Scalar} {v : Value} (hv : Members.find? k ms = some v) :
    ∃ w, Members.find? k ns = some w ∧ v.alike w = true := by
  obtain ⟨ns, heq, -, hfound⟩ := exists_of_alike_object h
  cases heq
  obtain ⟨text, -, -⟩ := isJson_object_iff.mp hms
  exact hfound _ (Members.mem_of_find?_of_text text hv).2

/-- Alike objects have the same keys: none is missing in the second one, each stands once in the
first, and they are equally many. -/
theorem perm_keys_of_alike : (Members.keys ms).Perm (Members.keys ns) := by
  obtain ⟨hlength, hfound⟩ := alike_object_iff.mp h
  obtain ⟨text, unique, -⟩ := isJson_object_iff.mp hms
  have hsub : Members.keys ms ⊆ Members.keys ns := by
    intro l hl
    obtain ⟨v, hv⟩ := Members.mem_keys_iff.mp hl
    obtain ⟨w, hw, -⟩ := hfound _ hv
    exact Members.mem_keys_iff.mpr ⟨w, Members.mem_of_find? (text _ hv) hw⟩
  refine (unique.subperm hsub).perm_of_length_le ?_
  simp [Members.keys, hlength]

theorem mem_keys_of_alike {k : Scalar} (hk : k ∈ Members.keys ns) : k ∈ Members.keys ms :=
  (perm_keys_of_alike hms h).mem_iff.mpr hk

/-- What is found in the second of two objects that are alike is found in the first. -/
theorem alike_find?_symm {k : Scalar} (hk : k.IsText) {w : Value}
    (hw : Members.find? k ns = some w) :
    ∃ v, Members.find? k ms = some v ∧ v.alike w = true := by
  have hmem : k ∈ Members.keys ns := Members.mem_keys_iff.mpr ⟨w, Members.mem_of_find? hk hw⟩
  obtain ⟨v, hv⟩ := Members.find?_isSome_of_mem hk (mem_keys_of_alike hms h hmem)
  obtain ⟨w', hw', hlike⟩ := alike_find? hms h hv
  rw [hw] at hw'
  cases hw'
  exact ⟨v, hv, hlike⟩

theorem alike_find?_eq_none {k : Scalar} (hk : k.IsText) (hnone : Members.find? k ms = none) :
    Members.find? k ns = none := by
  cases hw : Members.find? k ns with
  | none => rfl
  | some w =>
      obtain ⟨v, hv, -⟩ := alike_find?_symm hms h hk hw
      rw [hnone] at hv
      contradiction

end Objects

/-! ### An equivalence -/

theorem IsJson.alike_self {v : Value} (hv : v.IsJson) : v.alike v = true := by
  induction hv with
  | scalar s => simp [alike]
  | array _ ih => exact alike_array_iff.mpr (List.forall₂_same.mpr ih)
  | object text unique _ ih =>
      refine alike_object_iff.mpr ⟨rfl, fun m hm => ⟨m.2, ?_, ih m hm⟩⟩
      exact Members.find?_of_mem (text m hm) unique hm

theorem IsJson.of_alike {a b : Value} (ha : a.IsJson) (h : a.alike b = true) : b.IsJson := by
  induction ha generalizing b with
  | scalar s => rw [alike_scalar_iff.mp h]; exact .scalar s
  | array _ ih =>
      obtain ⟨ys, rfl, hall⟩ := exists_of_alike_array h
      refine .array fun y hy => ?_
      obtain ⟨x, hx, hxy⟩ := exists_left_of_mem hall hy
      exact ih x hx hxy
  | @object ms text unique values ih =>
      obtain ⟨ns, rfl, -, -⟩ := exists_of_alike_object h
      have hms : (Value.object ms).IsJson := .object text unique values
      have hperm := perm_keys_of_alike hms h
      have text' : ∀ n ∈ ns, n.1.IsText := by
        intro n hn
        obtain ⟨m, hm, hkey⟩ := List.mem_map.mp (hperm.mem_iff.mpr (List.mem_map_of_mem hn))
        exact hkey ▸ text m hm
      have unique' : (Members.keys ns).Nodup := hperm.nodup_iff.mp unique
      refine .object text' unique' fun n hn => ?_
      obtain ⟨v, hv, hlike⟩ := alike_find?_symm hms h (text' n hn)
        (Members.find?_of_mem (text' n hn) unique' hn)
      exact ih (n.1, v) (Members.mem_of_find? (text' n hn) hv) hlike

theorem alike_symm {a b : Value} (ha : a.IsJson) (h : a.alike b = true) : b.alike a = true := by
  induction ha generalizing b with
  | scalar s => simp [alike_scalar_iff.mp h, alike]
  | array _ ih =>
      obtain ⟨ys, rfl, hall⟩ := exists_of_alike_array h
      have hsymm : List.Forall₂ (fun x y => y.alike x = true) _ ys :=
        ((List.forall₂_and_left _ _).mpr ⟨ih, hall⟩).imp fun x y hxy => hxy.1 hxy.2
      exact alike_array_iff.mpr hsymm.flip
  | @object ms text unique values ih =>
      obtain ⟨ns, rfl, hlength, -⟩ := exists_of_alike_object h
      have hms : (Value.object ms).IsJson := .object text unique values
      obtain ⟨text', unique', -⟩ := isJson_object_iff.mp (hms.of_alike h)
      refine alike_object_iff.mpr ⟨hlength.symm, fun n hn => ?_⟩
      obtain ⟨v, hv, hlike⟩ := alike_find?_symm hms h (text' n hn)
        (Members.find?_of_mem (text' n hn) unique' hn)
      exact ⟨v, hv, ih (n.1, v) (Members.mem_of_find? (text' n hn) hv) hlike⟩

theorem alike_trans {a b c : Value} (ha : a.IsJson) (hab : a.alike b = true)
    (hbc : b.alike c = true) : a.alike c = true := by
  induction ha generalizing b c with
  | scalar s => rwa [alike_scalar_iff.mp hab] at hbc
  | array _ ih =>
      obtain ⟨ys, rfl, hall⟩ := exists_of_alike_array hab
      obtain ⟨zs, rfl, hall'⟩ := exists_of_alike_array hbc
      exact alike_array_iff.mpr (forall₂_trans hall hall' fun x hx _ _ hxy hyz => ih x hx hxy hyz)
  | @object ms text unique values ih =>
      obtain ⟨ns, rfl, hlength, hfound⟩ := exists_of_alike_object hab
      obtain ⟨os, rfl, hlength', -⟩ := exists_of_alike_object hbc
      have hns := (IsJson.object text unique values).of_alike hab
      refine alike_object_iff.mpr ⟨hlength.trans hlength', fun m hm => ?_⟩
      obtain ⟨w, hw, hlike⟩ := hfound m hm
      obtain ⟨u, hu, hlike'⟩ := alike_find? hns hbc hw
      exact ⟨u, hu, ih m hm hlike hlike'⟩

/-- Likeness does not depend on which of the values that are alike is compared. -/
theorem alike_congr {a b c d : Value} (ha : a.IsJson) (hb : b.IsJson) (hac : a.alike c = true)
    (hbd : b.alike d = true) : a.alike b = c.alike d := by
  have hc := ha.of_alike hac
  rw [Bool.eq_iff_iff]
  constructor
  · exact fun h => alike_trans hc (alike_symm ha hac) (alike_trans ha h hbd)
  · exact fun h => alike_trans ha hac (alike_trans hc h (alike_symm hb hbd))

theorem alike_comm {a b : Value} (ha : a.IsJson) (hb : b.IsJson) : a.alike b = b.alike a := by
  rw [Bool.eq_iff_iff]
  exact ⟨alike_symm ha, alike_symm hb⟩

end SchemaForge.Value
