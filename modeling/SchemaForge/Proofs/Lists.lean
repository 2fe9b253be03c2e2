import Mathlib.Data.List.Forall2
import Mathlib.Data.List.Induction
import Mathlib.Data.List.Nodup
import Mathlib.Data.Option.Basic

/-!
Facts on lists and options: first occurrences, lists that a function leaves alone, longest rows at the beginning of
a list, and relations that hold element by element.
-/

namespace SchemaForge

/-! ### First occurrences -/

theorem eraseDups_append_singleton {α : Type} [DecidableEq α] (xs : List α) (x : α) :
    (xs ++ [x]).eraseDups = if x ∈ xs then xs.eraseDups else xs.eraseDups ++ [x] := by
  rw [List.eraseDups_append]
  by_cases h : x ∈ xs <;> simp [List.cons_removeAll, List.eraseDups_cons, h]

theorem nodup_eraseDups {α : Type} [DecidableEq α] (xs : List α) : xs.eraseDups.Nodup := by
  induction xs using List.reverseRecOn with
  | nil => simp
  | append_singleton xs x ih =>
      rw [eraseDups_append_singleton]
      split
      · exact ih
      · next h =>
          refine List.nodup_append.mpr ⟨ih, List.nodup_singleton x, ?_⟩
          intro a ha b hb hab
          exact h (List.mem_singleton.mp hb ▸ hab ▸ List.mem_eraseDups.mp ha)

theorem eraseDups_of_nodup {α : Type} [DecidableEq α] {xs : List α} (h : xs.Nodup) :
    xs.eraseDups = xs := by
  induction xs using List.reverseRecOn with
  | nil => simp
  | append_singleton xs x ih =>
      obtain ⟨hxs, -, hdisjoint⟩ := List.nodup_append.mp h
      have hx : x ∉ xs := fun hmem => hdisjoint x hmem x List.mem_cons_self rfl
      rw [eraseDups_append_singleton, if_neg hx, ih hxs]

theorem eraseDups_eq_nil_iff {α : Type} [DecidableEq α] {xs : List α} :
    xs.eraseDups = [] ↔ xs = [] := by
  cases xs with
  | nil => simp
  | cons x xs => simp [List.eraseDups_cons]

/-- Putting something new in the place of an element leaves no repetition. -/
theorem nodup_map_replace {α : Type} [DecidableEq α] {xs : List α} {b : α} (h : xs.Nodup)
    (hb : b ∉ xs) (a : α) : (xs.map fun x => if x = a then b else x).Nodup := by
  refine h.map_on fun x hx y hy heq => ?_
  split at heq
  · next hxa =>
      split at heq
      · next hya => rw [hxa, hya]
      · exact absurd (heq ▸ hy) hb
  · split at heq
    · exact absurd (heq ▸ hx) hb
    · exact heq

/-- Removing one occurrence of an element leaves all others in their order. -/
theorem filter_ne_erase {α : Type} [DecidableEq α] (a : α) (xs : List α) :
    (xs.erase a).filter (· ≠ a) = xs.filter (· ≠ a) := by
  induction xs with
  | nil => rfl
  | cons x xs ih =>
      by_cases h : x = a
      · simp [h]
      · rw [List.erase_cons_tail (by simpa using h), List.filter_cons_of_pos (by simpa using h), ih,
          List.filter_cons_of_pos (by simpa using h)]

theorem map_eq_self_iff {α : Type} {f : α → α} {xs : List α} :
    xs.map f = xs ↔ ∀ x ∈ xs, f x = x := by
  induction xs with
  | nil => simp
  | cons x xs ih => simp [ih]

/-- Passing over elements does not change what a function finds exactly if it finds nothing in those passed over. -/
theorem filterMap_filter_eq_iff {α β : Type} {p : α → Bool} {f : α → Option β} {xs : List α} :
    (xs.filter p).filterMap f = xs.filterMap f ↔ ∀ x ∈ xs, p x = false → f x = none := by
  induction xs with
  | nil => simp
  | cons x xs ih =>
      by_cases hp : p x = true
      · cases hf : f x <;> simp [hp, hf, ih]
      · cases hf : f x with
        | none => simp [hp, hf, ih]
        | some b =>
            -- Finding it in addition makes the list longer.
            have hlonger : (xs.filter p).filterMap f ≠ b :: xs.filterMap f := fun heq => by
              have hpart : (xs.filter p).Sublist xs := List.filter_sublist
              have hshort := (hpart.filterMap f).length_le
              rw [heq, List.length_cons] at hshort
              omega
            simp [hp, hf, hlonger]

/-! ### Longest beginnings -/

section LongestBeginning

variable {α : Type} {p : α → Bool} {xs ys : List α}

/-- A row of elements with a property is the longest if it does not go on. -/
theorem takeWhile_append_of_ends (hxs : ∀ x ∈ xs, p x = true) (hys : ∀ y ∈ ys.head?, p y = false) :
    (xs ++ ys).takeWhile p = xs := by
  rw [List.takeWhile_append_of_pos hxs]
  cases ys with
  | nil => simp
  | cons y ys => rw [List.takeWhile_cons_of_neg (Bool.eq_false_iff.mp (hys y rfl)), List.append_nil]

theorem dropWhile_of_ends (hys : ∀ y ∈ ys.head?, p y = false) : ys.dropWhile p = ys := by
  cases ys with
  | nil => rfl
  | cons y ys => exact List.dropWhile_cons_of_neg (Bool.eq_false_iff.mp (hys y rfl))

theorem dropWhile_append_of_ends (hxs : ∀ x ∈ xs, p x = true) (hys : ∀ y ∈ ys.head?, p y = false) :
    (xs ++ ys).dropWhile p = ys := by
  rw [List.dropWhile_append_of_pos hxs, dropWhile_of_ends hys]

theorem ends_dropWhile (p : α → Bool) (xs : List α) : ∀ y ∈ (xs.dropWhile p).head?, p y = false := by
  intro y hy
  have hhead := List.head?_dropWhile_not p xs
  rw [Option.mem_def.mp hy] at hhead
  exact hhead

end LongestBeginning

/-! ### Related elements -/

theorem exists_right_of_mem {α β : Type} {r : α → β → Prop} {xs : List α} {ys : List β}
    (h : List.Forall₂ r xs ys) {x : α} (hx : x ∈ xs) : ∃ y ∈ ys, r x y := by
  induction h with
  | nil => simp at hx
  | @cons a b xs ys hab _ ih =>
      rcases List.mem_cons.mp hx with rfl | hx
      · exact ⟨b, List.mem_cons_self, hab⟩
      · obtain ⟨y, hy, hxy⟩ := ih hx
        exact ⟨y, List.mem_cons_of_mem _ hy, hxy⟩

theorem exists_left_of_mem {α β : Type} {r : α → β → Prop} {xs : List α} {ys : List β}
    (h : List.Forall₂ r xs ys) {y : β} (hy : y ∈ ys) : ∃ x ∈ xs, r x y :=
  exists_right_of_mem h.flip hy

/-- Lists that are related element by element are the two sides of one list of related pairs. -/
theorem exists_pairs {α β : Type} {r : α → β → Prop} {xs : List α} {ys : List β}
    (h : List.Forall₂ r xs ys) :
    ∃ pairs : List (α × β), xs = pairs.map (·.1) ∧ ys = pairs.map (·.2) ∧
      ∀ p ∈ pairs, r p.1 p.2 := by
  induction h with
  | nil => exact ⟨[], rfl, rfl, by simp⟩
  | @cons a b xs ys hab _ ih =>
      obtain ⟨pairs, rfl, rfl, hpairs⟩ := ih
      refine ⟨(a, b) :: pairs, rfl, rfl, fun p hp => ?_⟩
      rcases List.mem_cons.mp hp with rfl | hp
      · exact hab
      · exact hpairs p hp

theorem forall₂_trans {α β γ : Type} {r : α → β → Prop} {s : β → γ → Prop} {t : α → γ → Prop}
    {xs : List α} {ys : List β} {zs : List γ} (hxy : List.Forall₂ r xs ys)
    (hyz : List.Forall₂ s ys zs) (h : ∀ x ∈ xs, ∀ y z, r x y → s y z → t x z) :
    List.Forall₂ t xs zs := by
  induction hxy generalizing zs with
  | nil =>
      cases hyz
      exact .nil
  | @cons x y xs ys hab _ ih =>
      cases hyz with
      | cons hbc hrest =>
          exact .cons (h x List.mem_cons_self _ _ hab hbc)
            (ih hrest fun w hw => h w (List.mem_cons_of_mem _ hw))

theorem forall₂_antisymm {α : Type} {r : α → α → Prop} {xs ys : List α} (hxy : List.Forall₂ r xs ys)
    (hyx : List.Forall₂ r ys xs) (h : ∀ x ∈ xs, ∀ y, r x y → r y x → y = x) : ys = xs := by
  induction hxy with
  | nil => rfl
  | @cons x y xs ys hab _ ih =>
      cases hyx with
      | cons hba hrest =>
          rw [h x List.mem_cons_self y hab hba, ih hrest fun w hw => h w (List.mem_cons_of_mem _ hw)]

theorem exists_of_rel_some_right {α β : Type} {r : α → β → Prop} {o : Option α} {b : β}
    (h : Option.Rel r o (some b)) : ∃ a, o = some a ∧ r a b := by
  cases h with
  | some hab => exact ⟨_, rfl, hab⟩

theorem eq_none_of_rel_none {α β : Type} {r : α → β → Prop} {o : Option β}
    (h : Option.Rel r none o) : o = none := by
  cases h with
  | none => rfl

theorem exists_of_rel_some {α β : Type} {r : α → β → Prop} {a : α} {o : Option β}
    (h : Option.Rel r (some a) o) : ∃ b, o = some b ∧ r a b := by
  cases h with
  | some hab => exact ⟨_, rfl, hab⟩

end SchemaForge
