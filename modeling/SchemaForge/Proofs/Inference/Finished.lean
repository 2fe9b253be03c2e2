import SchemaForge.Proofs.Answers
import SchemaForge.Proofs.Inference.Accepts

/-!
What the finished form of a node holds at each keyword, in terms of what the node held there: the type
as it was, properties, items and variants in their own finished forms, required names only if there are
any, and a text for items that are missing. A node that accepts a sample still does in its finished
form.
-/

namespace SchemaForge.Inference

def entry (word : String) (v : Option Value) : Members := (v.map fun v => (.str word, v)).toList

@[simp] theorem entry_none (word : String) : entry word none = [] := rfl

@[simp] theorem entry_some (word : String) (v : Value) : entry word (some v) = [(.str word, v)] := rfl

@[simp] theorem find?_entry (word w : String) (v : Option Value) :
    Members.find? (.str w) (entry word v) = if word = w then v else none := by
  cases v <;> simp

theorem copied_eq_entry (word : String) (ms : Members) :
    copied word ms = entry word (Members.find? (.str word) ms) := by
  rw [copied]
  cases Members.find? (.str word) ms <;> rfl

/-! ### Keyword by keyword -/

/-- Properties and their finished forms. -/
def FinishedProperties (v w : Value) : Prop :=
  ∃ ps qs, v = .object ps ∧ w = .object qs ∧
    List.Forall₂ (fun m n => n.1 = m.1 ∧ nodeForm m.2 = .ok n.2) ps qs

/-- Items and their finished form, which is a text for items that are missing. -/
def FinishedItems (v w : Value) : Prop :=
  if v.truthy then nodeForm v = .ok w else w = Schema.stringNode

/-- Variants and their finished forms. -/
def FinishedVariants (v w : Value) : Prop :=
  ∃ xs ys, v = .array xs ∧ w = .array ys ∧ List.Forall₂ (fun x y => nodeForm x = .ok y) xs ys

theorem eachForm_eq_ok_iff {ps qs : Members} :
    eachForm ps = .ok qs ↔
      List.Forall₂ (fun m n => n.1 = m.1 ∧ nodeForm m.2 = .ok n.2) ps qs := by
  induction ps generalizing qs with
  | nil => cases qs <;> simp [eachForm]
  | cons m ps ih =>
      obtain ⟨k, p⟩ := m
      rw [eachForm]
      simp only [bind_eq_ok_iff, pure_eq_ok, Except.ok.injEq]
      constructor
      · rintro ⟨node, hnode, rest, hrest, rfl⟩
        exact .cons ⟨rfl, hnode⟩ (ih.mp hrest)
      · rintro (_ | ⟨⟨hkey, hnode⟩, hrest⟩)
        exact ⟨_, hnode, _, ih.mpr hrest, by rw [show k = _ from hkey.symm]⟩

theorem allForms_eq_ok_iff {xs ys : List Value} :
    allForms xs = .ok ys ↔ List.Forall₂ (fun x y => nodeForm x = .ok y) xs ys := by
  induction xs generalizing ys with
  | nil => cases ys <;> simp [allForms]
  | cons x xs ih =>
      rw [allForms]
      simp only [bind_eq_ok_iff, pure_eq_ok, Except.ok.injEq]
      constructor
      · rintro ⟨node, hnode, rest, hrest, rfl⟩
        exact .cons hnode (ih.mp hrest)
      · rintro (_ | ⟨hnode, hrest⟩)
        exact ⟨_, hnode, _, ih.mpr hrest, rfl⟩

theorem exists_eachForm {ps : Members} (h : ∀ m ∈ ps, ∃ node, nodeForm m.2 = .ok node) :
    ∃ qs, eachForm ps = .ok qs := by
  induction ps with
  | nil => exact ⟨[], by rw [eachForm]⟩
  | cons m ps ih =>
      obtain ⟨node, hnode⟩ := h m List.mem_cons_self
      obtain ⟨qs, hqs⟩ := ih fun n hn => h n (List.mem_cons_of_mem _ hn)
      exact ⟨(m.1, node) :: qs, by simp [eachForm, hnode, hqs]⟩

theorem exists_allForms {xs : List Value} (h : ∀ x ∈ xs, ∃ node, nodeForm x = .ok node) :
    ∃ ys, allForms xs = .ok ys := by
  induction xs with
  | nil => exact ⟨[], by rw [allForms]⟩
  | cons x xs ih =>
      obtain ⟨node, hnode⟩ := h x List.mem_cons_self
      obtain ⟨ys, hys⟩ := ih fun y hy => h y (List.mem_cons_of_mem _ hy)
      exact ⟨node :: ys, by simp [allForms, hnode, hys]⟩

theorem propertiesForm_eq (ms : Members) :
    propertiesForm ms =
      match Members.find? (.str "properties") ms with
      | none => .ok []
      | some (.object ps) => do return [(.str "properties", .object (← eachForm ps))]
      | some _ => .error .wrongShape := by
  induction ms with
  | nil => simp [propertiesForm]
  | cons m ms ih =>
      obtain ⟨k, v⟩ := m
      by_cases hk : k = .str "properties"
      · subst hk
        cases v <;> simp [propertiesForm, Members.find?]
      · have hsame : k.same (.str "properties") = false := Scalar.same_eq_false_of_ne ⟨_, rfl⟩ hk
        cases v <;> simp [propertiesForm, hk, Members.find?, hsame, ih]

theorem itemsForm_eq (ms : Members) :
    itemsForm ms =
      match Members.find? (.str "items") ms with
      | none => .ok []
      | some v =>
          if v.truthy then do return [(.str "items", ← nodeForm v)]
          else .ok [(.str "items", Schema.stringNode)] := by
  induction ms with
  | nil => simp [itemsForm]
  | cons m ms ih =>
      obtain ⟨k, v⟩ := m
      by_cases hk : k = .str "items"
      · subst hk
        simp [itemsForm, Members.find?]
      · have hsame : k.same (.str "items") = false := Scalar.same_eq_false_of_ne ⟨_, rfl⟩ hk
        rw [itemsForm, if_neg hk, ih]
        simp only [Members.find?, hsame, Bool.false_eq_true, if_false]

theorem variantsForm_of_none {ms : Members} (h : Members.find? (.str "oneOf") ms = none) :
    variantsForm ms = .ok [] := by
  induction ms with
  | nil => simp [variantsForm]
  | cons m ms ih =>
      obtain ⟨k, v⟩ := m
      by_cases hk : k = .str "oneOf"
      · simp [hk, Members.find?] at h
      · have hsame : k.same (.str "oneOf") = false := Scalar.same_eq_false_of_ne ⟨_, rfl⟩ hk
        simp only [Members.find?, hsame, Bool.false_eq_true, if_false] at h
        cases v <;> simp [variantsForm, hk, ih h]

theorem variantsForm_of_array {ms : Members} {xs : List Value}
    (h : Members.find? (.str "oneOf") ms = some (.array xs)) :
    variantsForm ms = (do return [(.str "oneOf", .array (← allForms xs))]) := by
  induction ms with
  | nil => simp at h
  | cons m ms ih =>
      obtain ⟨k, v⟩ := m
      by_cases hk : k = .str "oneOf"
      · subst hk
        simp only [Members.find?, Scalar.same_self, if_true, Option.some.injEq] at h
        subst h
        simp [variantsForm]
      · have hsame : k.same (.str "oneOf") = false := Scalar.same_eq_false_of_ne ⟨_, rfl⟩ hk
        simp only [Members.find?, hsame, Bool.false_eq_true, if_false] at h
        cases v <;> simp [variantsForm, hk, ih h]

theorem requiredForm_of_array {ms : Members} {x : Value} {xs : List Value}
    (h : Members.find? (.str "required") ms = some (.array (x :: xs))) :
    requiredForm ms = .ok [(.str "required", .array (x :: xs))] := by
  simp [requiredForm, h, Value.truthy]

theorem requiredForm_of_none {ms : Members} (h : Members.find? (.str "required") ms = none) :
    requiredForm ms = .ok [] := by
  simp [requiredForm, h]

/-! ### What a finished node holds -/

/-- What the finished form of a node holds, keyword by keyword. -/
structure FinishedMembers (ms ns : Members) : Prop where
  type : Members.find? (.str "type") ns = Members.find? (.str "type") ms
  required : ∀ v, Members.find? (.str "required") ns = some v →
    ∃ u xs, Members.find? (.str "required") ms = some u ∧ u.elements = .ok xs ∧ v = .array xs
  keepsRequired : ∀ x xs, Members.find? (.str "required") ms = some (.array (x :: xs)) →
    Members.find? (.str "required") ns = some (.array (x :: xs))
  properties : Option.Rel FinishedProperties (Members.find? (.str "properties") ms)
    (Members.find? (.str "properties") ns)
  items : Option.Rel FinishedItems (Members.find? (.str "items") ms)
    (Members.find? (.str "items") ns)
  noVariants : Members.find? (.str "oneOf") ms = none → Members.find? (.str "oneOf") ns = none
  variants : ∀ v, Members.find? (.str "oneOf") ms = some (.array v) →
    ∃ w, Members.find? (.str "oneOf") ns = some w ∧ FinishedVariants (.array v) w

theorem exists_entry_of_requiredForm {ms r : Members} (h : requiredForm ms = .ok r) :
    ∃ o, r = entry "required" o ∧ ∀ v, o = some v →
      ∃ u xs, Members.find? (.str "required") ms = some u ∧ u.elements = .ok xs ∧
        v = .array xs := by
  rw [requiredForm] at h
  cases hfind : Members.find? (.str "required") ms with
  | none =>
      simp only [hfind, pure_eq_ok, Except.ok.injEq] at h
      exact ⟨none, h.symm, by simp⟩
  | some u =>
      simp only [hfind] at h
      split at h
      · obtain ⟨xs, hxs, hr⟩ := bind_eq_ok_iff.mp h
        refine ⟨some (.array xs), (Except.ok.inj hr).symm, ?_⟩
        intro v hv
        cases hv
        exact ⟨u, xs, rfl, hxs, rfl⟩
      · exact ⟨none, (Except.ok.inj h).symm, by simp⟩

theorem exists_entry_of_propertiesForm {ms r : Members} (h : propertiesForm ms = .ok r) :
    ∃ o, r = entry "properties" o ∧
      Option.Rel FinishedProperties (Members.find? (.str "properties") ms) o := by
  rw [propertiesForm_eq] at h
  cases hfind : Members.find? (.str "properties") ms with
  | none =>
      simp only [hfind, Except.ok.injEq] at h
      exact ⟨none, h.symm, .none⟩
  | some v =>
      cases v with
      | object ps =>
          simp only [hfind] at h
          obtain ⟨qs, hqs, hr⟩ := bind_eq_ok_iff.mp h
          exact ⟨some (.object qs), (Except.ok.inj hr).symm,
            .some ⟨ps, qs, rfl, rfl, eachForm_eq_ok_iff.mp hqs⟩⟩
      | _ => simp [hfind] at h

theorem exists_entry_of_itemsForm {ms r : Members} (h : itemsForm ms = .ok r) :
    ∃ o, r = entry "items" o ∧
      Option.Rel FinishedItems (Members.find? (.str "items") ms) o := by
  rw [itemsForm_eq] at h
  cases hfind : Members.find? (.str "items") ms with
  | none =>
      simp only [hfind, Except.ok.injEq] at h
      exact ⟨none, h.symm, .none⟩
  | some v =>
      simp only [hfind] at h
      split at h
      · next htruthy =>
          obtain ⟨node, hnode, hr⟩ := bind_eq_ok_iff.mp h
          exact ⟨some node, (Except.ok.inj hr).symm, .some (by rwa [FinishedItems, if_pos htruthy])⟩
      · next htruthy =>
          exact ⟨some Schema.stringNode, (Except.ok.inj h).symm,
            .some (by rw [FinishedItems, if_neg htruthy])⟩

/-- Whatever the variants are, their form stands at one keyword. -/
theorem exists_entry_of_variantsForm {ms r : Members} (h : variantsForm ms = .ok r) :
    ∃ o, r = entry "oneOf" o := by
  induction ms with
  | nil =>
      rw [variantsForm] at h
      exact ⟨none, (Except.ok.inj h).symm⟩
  | cons m ms ih =>
      obtain ⟨k, v⟩ := m
      by_cases hk : k = .str "oneOf"
      · subst hk
        cases v with
        | array xs =>
            rw [variantsForm, if_pos rfl] at h
            obtain ⟨ys, -, hr⟩ := bind_eq_ok_iff.mp h
            exact ⟨some (.array ys), (Except.ok.inj hr).symm⟩
        | scalar s =>
            rw [variantsForm, if_pos rfl] at h
            · obtain ⟨xs, -, h⟩ := bind_eq_ok_iff.mp h
              obtain ⟨ys, -, hr⟩ := bind_eq_ok_iff.mp h
              exact ⟨some (.array ys), (Except.ok.inj hr).symm⟩
            · simp
        | object ns =>
            rw [variantsForm, if_pos rfl] at h
            · obtain ⟨xs, -, h⟩ := bind_eq_ok_iff.mp h
              obtain ⟨ys, -, hr⟩ := bind_eq_ok_iff.mp h
              exact ⟨some (.array ys), (Except.ok.inj hr).symm⟩
            · simp
      · cases v <;> exact ih (by simpa [variantsForm, hk] using h)

/-- The members of a finished node in their order. -/
theorem nodeForm_eq_ok {ms required properties items variants : Members}
    (hr : requiredForm ms = .ok required) (hp : propertiesForm ms = .ok properties)
    (hi : itemsForm ms = .ok items) (hv : variantsForm ms = .ok variants) :
    nodeForm (.object ms) = .ok (.object (entry "type" (Members.find? (.str "type") ms) ++
      entry "format" (Members.find? (.str "format") ms) ++
      entry "title" (Members.find? (.str "title") ms) ++ required ++ properties ++ items ++
      variants)) := by
  simp [nodeForm, hr, hp, hi, hv, copied_eq_entry]

/-- The finished form of a set of variants is the set of their finished forms. -/
theorem nodeForm_set {xs ys : List Value} (h : allForms xs = .ok ys) :
    nodeForm (.object [(.str "oneOf", .array xs)]) = .ok (.object [(.str "oneOf", .array ys)]) := by
  have hv : variantsForm [(.str "oneOf", .array xs)] = .ok [(.str "oneOf", .array ys)] := by
    simp [variantsForm, h]
  have hp : propertiesForm [(.str "oneOf", .array xs)] = .ok [] := by simp [propertiesForm]
  have hi : itemsForm [(.str "oneOf", .array xs)] = .ok [] := by simp [itemsForm]
  exact nodeForm_eq_ok (requiredForm_of_none (by simp)) hp hi hv

theorem exists_of_nodeForm {ms : Members} {node : Value} (h : nodeForm (.object ms) = .ok node) :
    ∃ ns, node = .object ns ∧ FinishedMembers ms ns := by
  rw [nodeForm] at h
  simp only [bind_eq_ok_iff] at h
  obtain ⟨r, hr, p, hp, i, hi, v, hv, h⟩ := h
  obtain rfl := Except.ok.inj h
  obtain ⟨r, rfl, hrequired⟩ := exists_entry_of_requiredForm hr
  obtain ⟨p, rfl, hproperties⟩ := exists_entry_of_propertiesForm hp
  obtain ⟨i, rfl, hitems⟩ := exists_entry_of_itemsForm hi
  obtain ⟨v, rfl⟩ := exists_entry_of_variantsForm hv
  refine ⟨_, rfl, ?_, ?_, ?_, ?_, ?_, ?_, ?_⟩
  · simp [Members.find?_append, copied_eq_entry]
  · simpa [Members.find?_append, copied_eq_entry] using hrequired
  · intro x xs hsome
    rw [requiredForm_of_array hsome] at hr
    cases r with
    | none => simp at hr
    | some r =>
        simp only [entry_some, Except.ok.injEq, List.cons.injEq, Prod.mk.injEq, true_and,
          and_true] at hr
        subst hr
        simp [Members.find?_append, copied_eq_entry, Members.find?]
  · simpa [Members.find?_append, copied_eq_entry] using hproperties
  · simpa [Members.find?_append, copied_eq_entry] using hitems
  · intro hnone
    rw [variantsForm_of_none hnone] at hv
    cases v with
    | none => simp [Members.find?_append, copied_eq_entry]
    | some v => simp at hv
  · intro xs hsome
    rw [variantsForm_of_array hsome] at hv
    obtain ⟨ys, hys, hv⟩ := bind_eq_ok_iff.mp hv
    cases v with
    | none => simp at hv
    | some v =>
        simp only [pure_eq_ok, entry_some, Except.ok.injEq, List.cons.injEq, Prod.mk.injEq,
          true_and, and_true] at hv
        subst hv
        exact ⟨.array ys, by simp [Members.find?_append, copied_eq_entry],
          xs, ys, rfl, rfl, allForms_eq_ok_iff.mp hys⟩

/-! ### Keywords of a finished node -/

theorem keys_entry_sublist (word : String) (v : Option Value) :
    (Members.keys (entry word v)).Sublist [.str word] := by
  cases v with
  | none => exact List.nil_sublist _
  | some v => exact List.Sublist.refl _

theorem exists_entries_of_nodeForm {ms ns : Members}
    (h : nodeForm (.object ms) = .ok (.object ns)) :
    ∃ required properties items variants,
      ns = entry "type" (Members.find? (.str "type") ms) ++
        entry "format" (Members.find? (.str "format") ms) ++
        entry "title" (Members.find? (.str "title") ms) ++ entry "required" required ++
        entry "properties" properties ++ entry "items" items ++ entry "oneOf" variants := by
  rw [nodeForm] at h
  simp only [bind_eq_ok_iff] at h
  obtain ⟨r, hr, p, hp, i, hi, v, hv, h⟩ := h
  cases h
  obtain ⟨r, rfl, -⟩ := exists_entry_of_requiredForm hr
  obtain ⟨p, rfl, -⟩ := exists_entry_of_propertiesForm hp
  obtain ⟨i, rfl, -⟩ := exists_entry_of_itemsForm hi
  obtain ⟨v, rfl⟩ := exists_entry_of_variantsForm hv
  simp only [copied_eq_entry]
  exact ⟨r, p, i, v, rfl⟩

/-- A finished node has the keywords that inference may state, in their order. -/
theorem keys_sublist_keywords {ms ns : Members} (h : nodeForm (.object ms) = .ok (.object ns)) :
    (Members.keys ns).Sublist (keywords.map .str) := by
  obtain ⟨r, p, i, v, rfl⟩ := exists_entries_of_nodeForm h
  simp only [Members.keys, List.map_append]
  exact ((((((keys_entry_sublist "type" _).append (keys_entry_sublist "format" _)).append
    (keys_entry_sublist "title" _)).append (keys_entry_sublist "required" _)).append
    (keys_entry_sublist "properties" _)).append (keys_entry_sublist "items" _)).append
    (keys_entry_sublist "oneOf" _)

theorem nodup_keys_of_nodeForm {ms ns : Members} (h : nodeForm (.object ms) = .ok (.object ns)) :
    (Members.keys ns).Nodup :=
  (keys_sublist_keywords h).nodup (by decide)

/-- The keywords that finishing copies. -/
theorem find?_copied {ms ns : Members} (h : nodeForm (.object ms) = .ok (.object ns)) {word : String}
    (hword : word ∈ ["type", "format", "title"]) :
    Members.find? (.str word) ns = Members.find? (.str word) ms := by
  obtain ⟨r, p, i, v, rfl⟩ := exists_entries_of_nodeForm h
  simp only [List.mem_cons, List.not_mem_nil, or_false] at hword
  rcases hword with rfl | rfl | rfl <;> simp [Members.find?_append]

/-! ### Acceptance -/

section Acceptance

variable {ms ns : Members} (h : FinishedMembers ms ns)

include h

theorem FinishedMembers.declares {t : String} (hd : Declares ms t) : Declares ns t := by
  obtain ⟨declared, hfind, ht⟩ := hd
  exact ⟨declared, h.type.trans hfind, ht⟩

theorem FinishedMembers.requiresAmong {keys : List Scalar} (hr : RequiresAmong ms keys) :
    RequiresAmong ns keys := by
  intro v hv
  obtain ⟨u, xs, hu, hxs, rfl⟩ := h.required v hv
  obtain ⟨names, rfl, hnames⟩ := hr u hu
  cases hxs
  exact ⟨xs, rfl, hnames⟩

theorem FinishedMembers.find?_properties {ps : Members}
    (hp : Members.find? (.str "properties") ms = some (.object ps)) :
    ∃ qs, Members.find? (.str "properties") ns = some (.object qs) ∧
      List.Forall₂ (fun m n => n.1 = m.1 ∧ nodeForm m.2 = .ok n.2) ps qs := by
  obtain ⟨w, hw, _, qs, heq, rfl, hall⟩ := exists_of_rel_some (hp ▸ h.properties)
  cases heq
  exact ⟨qs, hw, hall⟩

theorem FinishedMembers.find?_items {v : Value}
    (hi : Members.find? (.str "items") ms = some v) :
    ∃ w, Members.find? (.str "items") ns = some w ∧ FinishedItems v w :=
  exists_of_rel_some (hi ▸ h.items)

end Acceptance

/-- Looking up a key in properties and in their finished forms. -/
theorem find?_finished {ps qs : Members}
    (h : List.Forall₂ (fun m n => n.1 = m.1 ∧ nodeForm m.2 = .ok n.2) ps qs) (k : Scalar) :
    Option.Rel (fun p q => nodeForm p = .ok q) (Members.find? k ps) (Members.find? k qs) := by
  induction h with
  | nil => exact .none
  | @cons m n ps qs hmn _ ih =>
      obtain ⟨l, p⟩ := m
      obtain ⟨_, q⟩ := n
      obtain ⟨rfl, hnode⟩ := hmn
      simp only [Members.find?]
      split
      · exact .some hnode
      · exact ih

theorem keys_finished {ps qs : Members}
    (h : List.Forall₂ (fun m n => n.1 = m.1 ∧ nodeForm m.2 = .ok n.2) ps qs) :
    Members.keys qs = Members.keys ps := by
  induction h with
  | nil => rfl
  | cons hmn _ ih => exact congrArg₂ List.cons hmn.1 ih

/-- A node that accepts a sample does so in its finished form. -/
theorem Accepts.finished {node node' : Value} {v : Sample} (h : Accepts node v)
    (hform : nodeForm node = .ok node') : Accepts node' v := by
  induction h generalizing node' with
  | @variant ms xs x v set mem _ ih =>
      obtain ⟨ns, rfl, hfin⟩ := exists_of_nodeForm hform
      obtain ⟨_, hfind, xs', ys, heq, rfl, hall⟩ := hfin.variants xs set
      cases heq
      obtain ⟨y, hy, hxy⟩ := exists_right_of_mem hall mem
      exact .variant hfind hy (ih hxy)
  | plain noSet declares isPlain =>
      obtain ⟨ns, rfl, hfin⟩ := exists_of_nodeForm hform
      exact .plain (hfin.noVariants noSet) (hfin.declares declares) isPlain
  | @object ms ps fields noSet declares properties known _ required ih =>
      obtain ⟨ns, rfl, hfin⟩ := exists_of_nodeForm hform
      obtain ⟨qs, hqs, hall⟩ := hfin.find?_properties properties
      refine .object (hfin.noVariants noSet) (hfin.declares declares) hqs ?_ ?_
        (hfin.requiresAmong required)
      · intro m hm
        obtain ⟨p, hp⟩ := known m hm
        obtain ⟨q, hq, -⟩ := exists_of_rel_some (hp ▸ find?_finished hall m.1)
        exact ⟨q, hq⟩
      · intro m hm q hq
        obtain ⟨p, hp⟩ := known m hm
        obtain ⟨q', hq', hnode⟩ := exists_of_rel_some (hp ▸ find?_finished hall m.1)
        rw [hq] at hq'
        cases hq'
        exact ih m hm p hp hnode
  | @array ms items xs noSet declares isItems elements ih =>
      obtain ⟨ns, rfl, hfin⟩ := exists_of_nodeForm hform
      obtain ⟨w, hw, hitems⟩ := hfin.find?_items isItems
      refine .array (hfin.noVariants noSet) (hfin.declares declares) hw fun x hx => ?_
      -- Items that accept anything are not missing, so their finished form is a node's.
      rw [FinishedItems, if_pos (truthy_of_accepts (elements x hx))] at hitems
      exact ih x hx hitems

end SchemaForge.Inference
