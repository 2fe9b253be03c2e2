import SchemaForge.Proofs.Inference.Soundness

/-!
Growth at sets of variants. A schema has grown if some of its sets have further variants at their end and
everything else is as it was, the order of members included. Growth is an order, so a schema that has grown in
several steps is the same as before only if no step has changed it, and it can be told from finished forms
whether drafts have grown.
-/

namespace SchemaForge.Inference

open Sample (types)

/-- A set of variants, and the same set with further variants at its end. -/
def GrowsSet (k : Scalar) (v w : Value) : Prop :=
  k = .str "oneOf" ∧ ∃ ys more, v = .array ys ∧ w = .array (ys ++ more)

mutual

/-- A value, and the same value with further variants in its sets. -/
def Grows : (v w : Value) → Prop
  | .scalar s, w => w = .scalar s
  | .array xs, w => w = .array xs
  | .object ms, w => ∃ ns, w = .object ns ∧ GrowsMembers ms ns

def GrowsMembers : (ms ns : List (Scalar × Value)) → Prop
  | [], ns => ns = []
  | (k, v) :: ms, ns =>
      ∃ w rest, ns = (k, w) :: rest ∧ (Grows v w ∨ GrowsSet k v w) ∧ GrowsMembers ms rest

end

def GrowsAt (k : Scalar) (v w : Value) : Prop := Grows v w ∨ GrowsSet k v w

def GrowsMember (m n : Scalar × Value) : Prop := n.1 = m.1 ∧ GrowsAt m.1 m.2 n.2

theorem growsMembers_iff {ms ns : Members} : GrowsMembers ms ns ↔ List.Forall₂ GrowsMember ms ns := by
  induction ms generalizing ns with
  | nil => simp [GrowsMembers]
  | cons m ms ih =>
      obtain ⟨k, v⟩ := m
      rw [GrowsMembers, List.forall₂_cons_left_iff]
      constructor
      · rintro ⟨w, rest, rfl, hvalue, hrest⟩
        exact ⟨(k, w), rest, ⟨rfl, hvalue⟩, ih.mp hrest, rfl⟩
      · rintro ⟨⟨_, w⟩, rest, ⟨rfl, hvalue⟩, hrest, rfl⟩
        exact ⟨w, rest, rfl, hvalue, ih.mpr hrest⟩

theorem grows_object_iff {ms : Members} {w : Value} :
    Grows (.object ms) w ↔ ∃ ns, w = .object ns ∧ List.Forall₂ GrowsMember ms ns := by
  rw [Grows]
  simp only [growsMembers_iff]

theorem grows_iff_eq {v w : Value} (h : ∀ ms, v ≠ .object ms) : Grows v w ↔ w = v := by
  cases v with
  | scalar s => rw [Grows]
  | array xs => rw [Grows]
  | object ms => exact absurd rfl (h ms)

theorem eq_of_grows_array {v : Value} {ys : List Value} (h : Grows v (.array ys)) : v = .array ys := by
  cases v with
  | scalar s => rw [Grows] at h; exact h.symm
  | array xs => rw [Grows] at h; exact h.symm
  | object ms =>
      obtain ⟨ns, heq, -⟩ := grows_object_iff.mp h
      cases heq

/-! ### An order -/

theorem Grows.refl (v : Value) : Grows v v := by
  induction v using Value.part_induction with
  | other v h => exact (grows_iff_eq h).mpr rfl
  | node ms ih =>
      exact grows_object_iff.mpr ⟨ms, rfl, List.forall₂_same.mpr fun m hm => ⟨rfl, .inl (ih m hm).self⟩⟩

theorem GrowsAt.refl (k : Scalar) (v : Value) : GrowsAt k v v := .inl (.refl v)

theorem grows_self (ms : Members) : List.Forall₂ GrowsMember ms ms :=
  List.forall₂_same.mpr fun _ _ => ⟨rfl, .refl _ _⟩

theorem growsAt_trans {k : Scalar} {a b c : Value} (ih : ∀ b c, Grows a b → Grows b c → Grows a c)
    (hab : GrowsAt k a b) (hbc : GrowsAt k b c) : GrowsAt k a c := by
  rcases hab with hab | ⟨hk, ys, more, rfl, rfl⟩
  · rcases hbc with hbc | ⟨hk, ys, more, rfl, rfl⟩
    · exact .inl (ih b c hab hbc)
    · exact .inr ⟨hk, ys, more, eq_of_grows_array hab, rfl⟩
  · rcases hbc with hbc | ⟨-, zs, rest, heq, rfl⟩
    · rw [grows_iff_eq (by simp)] at hbc
      exact .inr ⟨hk, ys, more, rfl, hbc⟩
    · cases heq
      exact .inr ⟨hk, ys, more ++ rest, rfl, by rw [List.append_assoc]⟩

theorem Grows.trans {a b c : Value} (hab : Grows a b) (hbc : Grows b c) : Grows a c := by
  induction a using Value.part_induction generalizing b c with
  | other a h =>
      rw [grows_iff_eq h] at hab
      exact hab ▸ hbc
  | node ms ih =>
      obtain ⟨ns, rfl, hns⟩ := grows_object_iff.mp hab
      obtain ⟨os, rfl, hos⟩ := grows_object_iff.mp hbc
      refine grows_object_iff.mpr ⟨os, rfl, forall₂_trans hns hos ?_⟩
      rintro m hm n o ⟨hkey, hmn⟩ ⟨hkey', hno⟩
      rw [hkey] at hkey' hno
      exact ⟨hkey', growsAt_trans (fun _ _ => (ih m hm).self) hmn hno⟩

theorem eq_of_growsAt {k : Scalar} {a b : Value} (ih : ∀ b, Grows a b → Grows b a → b = a)
    (hab : GrowsAt k a b) (hba : GrowsAt k b a) : b = a := by
  rcases hab with hab | ⟨-, ys, more, rfl, rfl⟩
  · rcases hba with hba | ⟨-, ys, more, rfl, rfl⟩
    · exact ih b hab hba
    · exact (eq_of_grows_array hab).symm
  · rcases hba with hba | ⟨-, zs, rest, heq, heq'⟩
    · exact eq_of_grows_array hba
    · -- Neither of the two sets can be the longer one.
      cases heq
      have hlength := congrArg List.length (Value.array.inj heq')
      simp only [List.length_append] at hlength
      rw [List.length_eq_zero_iff.mp (by omega : more.length = 0), List.append_nil]

/-- Values that have grown to each other are the same. -/
theorem Grows.antisymm {a b : Value} (hab : Grows a b) (hba : Grows b a) : b = a := by
  induction a using Value.part_induction generalizing b with
  | other a h => exact (grows_iff_eq h).mp hab
  | node ms ih =>
      obtain ⟨ns, rfl, hns⟩ := grows_object_iff.mp hab
      obtain ⟨ms', heq, hms⟩ := grows_object_iff.mp hba
      cases heq
      refine congrArg Value.object (forall₂_antisymm hns hms ?_)
      rintro m hm n ⟨hkey, hmn⟩ ⟨-, hnm⟩
      exact Prod.ext hkey (eq_of_growsAt (fun _ => (ih m hm).self) hmn (hkey ▸ hnm))

/-! ### Members -/

/-- Only what is a list, at the key of sets, or has parts by key can have grown. -/
theorem GrowsAt.eq_of_isFlat {k : Scalar} {v w : Value} (h : GrowsAt k v w) (hk : k ≠ .str "oneOf")
    (hv : IsFlat v) : w = v := by
  rcases h with h | ⟨hset, -⟩
  · refine (grows_iff_eq fun ms hms => ?_).mp h
    rw [hms] at hv
    cases hv
  · exact absurd hset hk

theorem GrowsAt.exists_members {k : Scalar} {ms : Members} {w : Value} (h : GrowsAt k (.object ms) w) :
    ∃ ns, w = .object ns ∧ List.Forall₂ GrowsMember ms ns := by
  rcases h with h | ⟨-, _, _, heq, -⟩
  · exact grows_object_iff.mp h
  · cases heq

section Members

variable {ms ns : Members} (h : List.Forall₂ GrowsMember ms ns)

include h

theorem keys_of_grows : Members.keys ns = Members.keys ms := by
  induction h with
  | nil => rfl
  | cons hmn _ ih => exact congrArg₂ List.cons hmn.1 ih

theorem find?_of_grows {k : Scalar} (hk : k.IsText) :
    Option.Rel (GrowsAt k) (Members.find? k ms) (Members.find? k ns) := by
  induction h with
  | nil => exact .none
  | @cons m n ms ns hmn _ ih =>
      obtain ⟨l, v⟩ := m
      obtain ⟨_, w⟩ := n
      obtain ⟨rfl, hvalue⟩ := hmn
      simp only [Members.find?]
      split
      · next hsame => exact .some ((Scalar.same_iff_of_isText hk _).mp hsame ▸ hvalue)
      · exact ih

theorem grows_insert_both (k : Scalar) (v : Value) :
    List.Forall₂ GrowsMember (Members.insert k v ms) (Members.insert k v ns) := by
  induction h with
  | nil => exact .cons ⟨rfl, .refl k v⟩ .nil
  | @cons m n ms ns hmn hrest ih =>
      obtain ⟨l, u⟩ := m
      obtain ⟨_, w⟩ := n
      obtain ⟨rfl, hvalue⟩ := hmn
      simp only [Members.insert]
      split
      · exact .cons ⟨rfl, .refl _ v⟩ hrest
      · exact .cons ⟨rfl, hvalue⟩ ih

end Members

/-- Growth of the value at one key is growth of the object. -/
theorem grows_insert {k : Scalar} (hk : k.IsText) {v w : Value} (h : GrowsAt k v w) {ms : Members}
    (hfind : Members.find? k ms = some v) : Grows (.object ms) (.object (Members.insert k w ms)) := by
  refine grows_object_iff.mpr ⟨_, rfl, ?_⟩
  induction ms with
  | nil => simp at hfind
  | cons m ms ih =>
      obtain ⟨l, u⟩ := m
      by_cases hl : l.same k
      · obtain rfl : l = k := (Scalar.same_iff_of_isText hk l).mp hl
        simp only [Members.find?, hl, if_true, Option.some.injEq] at hfind
        simp only [Members.insert, hl, if_true]
        exact .cons ⟨rfl, hfind ▸ h⟩ (grows_self ms)
      · simp only [Members.find?, hl, Bool.false_eq_true, if_false] at hfind
        simp only [Members.insert, hl, Bool.false_eq_true, if_false]
        exact .cons ⟨rfl, .refl _ _⟩ (ih hfind)

/-! ### Finished forms -/

/-- Growth of a draft leads to growth of its finished form, which shows it. -/
def ShowsGrowth (node : Value) : Prop :=
  ∀ {node' form form' : Value}, Grows node node' → nodeForm node = .ok form →
    nodeForm node' = .ok form' → Grows form form' ∧ (form' = form → node' = node)

theorem grows_entry {word : String} {o o' : Option Value} (h : Option.Rel (GrowsAt (.str word)) o o') :
    List.Forall₂ GrowsMember (entry word o) (entry word o') := by
  cases h with
  | none => exact .nil
  | some h => exact .cons ⟨rfl, h⟩ .nil

theorem grows_append {ms ns os ps : Members} (h : List.Forall₂ GrowsMember ms ns)
    (h' : List.Forall₂ GrowsMember os ps) : List.Forall₂ GrowsMember (ms ++ os) (ns ++ ps) :=
  List.rel_append h h'

/-- Properties, with the finished forms of their nodes. -/
theorem grows_eachForm {ps qs ps' qs' : Members} (h : List.Forall₂ GrowsMember ps qs)
    (shows : ∀ m ∈ ps, ShowsGrowth m.2 ∧ ∃ ms, m.2 = .object ms)
    (hps : List.Forall₂ (fun m n => n.1 = m.1 ∧ nodeForm m.2 = .ok n.2) ps ps')
    (hqs : List.Forall₂ (fun m n => n.1 = m.1 ∧ nodeForm m.2 = .ok n.2) qs qs') :
    List.Forall₂ GrowsMember ps' qs' ∧ (qs' = ps' → qs = ps) := by
  induction h generalizing ps' qs' with
  | nil =>
      cases hps
      cases hqs
      exact ⟨.nil, fun _ => rfl⟩
  | @cons m n ps qs hmn _ ih =>
      obtain ⟨hkey, hvalue⟩ := hmn
      cases hps with
      | @cons _ m' _ _ hm hps =>
          cases hqs with
          | @cons _ n' _ _ hn hqs =>
              obtain ⟨hgrows, hrest⟩ := ih (fun o ho => shows o (List.mem_cons_of_mem _ ho)) hps hqs
              obtain ⟨hshows, ms, hobject⟩ := shows m List.mem_cons_self
              have hnode : Grows m.2 n.2 := by
                rw [hobject] at hvalue ⊢
                exact grows_object_iff.mpr hvalue.exists_members
              obtain ⟨hform, hsame⟩ := hshows hnode hm.2 hn.2
              refine ⟨.cons ⟨?_, .inl hform⟩ hgrows, fun heq => ?_⟩
              · rw [hn.1, hkey, hm.1]
              · obtain ⟨heq, hqs⟩ := List.cons.inj heq
                rw [hrest hqs, Prod.ext hkey (hsame (congrArg Prod.snd heq))]

theorem grows_finishedProperties {k : Scalar} {a b p q : Option Value}
    (h : Option.Rel (GrowsAt k) a b)
    (shows : ∀ ps, a = some (.object ps) → ∀ m ∈ ps, ShowsGrowth m.2 ∧ ∃ ms, m.2 = .object ms)
    (hp : Option.Rel FinishedProperties a p) (hq : Option.Rel FinishedProperties b q) :
    Option.Rel (GrowsAt k) p q ∧ (q = p → b = a) := by
  cases h with
  | none =>
      cases hp
      cases hq
      exact ⟨.none, fun _ => rfl⟩
  | some h =>
      cases hp with
      | some hp =>
          cases hq with
          | some hq =>
              obtain ⟨ps, ps', rfl, rfl, hps⟩ := hp
              obtain ⟨qs, qs', rfl, rfl, hqs⟩ := hq
              obtain ⟨_, heq, hgrows⟩ := h.exists_members
              cases heq
              obtain ⟨hforms, hsame⟩ := grows_eachForm hgrows (shows ps rfl) hps hqs
              refine ⟨.some (.inl (grows_object_iff.mpr ⟨_, rfl, hforms⟩)), fun heq => ?_⟩
              cases heq
              rw [hsame rfl]

/-- Items, of which the missing ones are those of the empty node, which does not grow. -/
theorem grows_finishedItem {v w v' w' : Value} {k : Scalar} (h : GrowsAt k v w) (shows : ShowsGrowth v)
    (hobject : ∃ ms, v = .object ms) (hv : FinishedItems v v') (hw : FinishedItems w w') :
    Grows v' w' ∧ (w' = v' → w = v) := by
  obtain ⟨ms, rfl⟩ := hobject
  obtain ⟨ns, rfl, hgrows⟩ := h.exists_members
  rw [FinishedItems] at hv hw
  cases hgrows with
  | nil =>
      rw [if_neg (by simp [Value.truthy])] at hv hw
      subst hv hw
      exact ⟨.refl _, fun _ => rfl⟩
  | cons hmn hrest =>
      rw [if_pos (by simp [Value.truthy])] at hv hw
      exact shows (grows_object_iff.mpr ⟨_, rfl, .cons hmn hrest⟩) hv hw

theorem grows_finishedItems {k : Scalar} {a b i j : Option Value} (h : Option.Rel (GrowsAt k) a b)
    (shows : ∀ v, a = some v → ShowsGrowth v ∧ ∃ ms, v = .object ms)
    (hi : Option.Rel FinishedItems a i) (hj : Option.Rel FinishedItems b j) :
    Option.Rel (GrowsAt k) i j ∧ (j = i → b = a) := by
  cases h with
  | none =>
      cases hi
      cases hj
      exact ⟨.none, fun _ => rfl⟩
  | some h =>
      cases hi with
      | some hi =>
          cases hj with
          | some hj =>
              obtain ⟨hshows, hobject⟩ := shows _ rfl
              obtain ⟨hforms, hsame⟩ := grows_finishedItem h hshows hobject hi hj
              exact ⟨.some (.inl hforms), fun heq => by rw [hsame (Option.some.inj heq)]⟩

/-- The finished form of a node without the keywords that drafts do not have. -/
theorem exists_of_nodeForm_plain {ms : Members} {form : Value}
    (hwords : ∀ w ∈ ["format", "title", "oneOf"], Members.find? (.str w) ms = none)
    (h : nodeForm (.object ms) = .ok form) :
    ∃ r p i, form = .object (entry "type" (Members.find? (.str "type") ms) ++ entry "required" r ++
        entry "properties" p ++ entry "items" i) ∧
      requiredForm ms = .ok (entry "required" r) ∧
      Option.Rel FinishedProperties (Members.find? (.str "properties") ms) p ∧
      Option.Rel FinishedItems (Members.find? (.str "items") ms) i := by
  rw [nodeForm] at h
  simp only [bind_eq_ok_iff] at h
  obtain ⟨r, hr, p, hp, i, hi, v, hv, h⟩ := h
  cases h
  obtain ⟨r, rfl, -⟩ := exists_entry_of_requiredForm hr
  obtain ⟨p, rfl, hproperties⟩ := exists_entry_of_propertiesForm hp
  obtain ⟨i, rfl, hitems⟩ := exists_entry_of_itemsForm hi
  rw [variantsForm_of_none (hwords "oneOf" (by decide))] at hv
  cases hv
  refine ⟨r, p, i, ?_, hr, hproperties, hitems⟩
  simp only [copied_eq_entry, hwords "format" (by decide), hwords "title" (by decide), entry_none,
    List.append_nil]

/-- Members with the same keys, each of them once, are told apart by what is found at the keys. -/
theorem eq_of_find?_eq {ms ns : Members} (hkeys : Members.keys ns = Members.keys ms)
    (text : ∀ m ∈ ms, m.1.IsText) (unique : (Members.keys ms).Nodup)
    (h : ∀ k ∈ Members.keys ms, Members.find? k ns = Members.find? k ms) : ns = ms := by
  have hlookup : ∀ os : Members, Members.keys os = Members.keys ms →
      os = (Members.keys ms).map fun k => (k, (Members.find? k os).getD .null) := by
    intro os hos
    rw [← hos, Members.keys, List.map_map]
    refine (map_eq_self_iff.mpr fun m hm => ?_).symm
    have hkey : m.1 ∈ Members.keys ms := hos ▸ List.mem_map_of_mem hm
    obtain ⟨n, hn, hnkey⟩ := List.mem_map.mp hkey
    have htext : m.1.IsText := hnkey ▸ text n hn
    simp [Members.find?_of_mem htext (hos ▸ unique) hm]
  calc
    ns = (Members.keys ms).map fun k => (k, (Members.find? k ns).getD .null) := hlookup ns hkeys
    _ = (Members.keys ms).map fun k => (k, (Members.find? k ms).getD .null) :=
        List.map_congr_left fun k hk => by rw [h k hk]
    _ = ms := (hlookup ms rfl).symm

theorem nodeForm_set_eq (xs : List Value) :
    nodeForm (.object [(.str "oneOf", .array xs)]) =
      (do return .object [(.str "oneOf", .array (← allForms xs))]) := by
  cases hxs : allForms xs with
  | ok ys => exact nodeForm_set hxs
  | error fault =>
      simp [nodeForm, requiredForm, propertiesForm, itemsForm, variantsForm, hxs]

theorem allForms_append (xs ys : List Value) :
    allForms (xs ++ ys) = (do return (← allForms xs) ++ (← allForms ys)) := by
  induction xs with
  | nil =>
      rw [List.nil_append, allForms, ok_bind]
      cases allForms ys <;> rfl
  | cons x xs ih => simp [allForms, ih, bind_assoc]

/-- A further variant of a draft is a further variant of its finished form. -/
theorem showsGrowth_set (xs : List Value) : ShowsGrowth (.object [(.str "oneOf", .array xs)]) := by
  intro node' form form' hgrows hform hform'
  obtain ⟨more, rfl⟩ : ∃ more, node' = .object [(.str "oneOf", .array (xs ++ more))] := by
    obtain ⟨ns, rfl, hmembers⟩ := grows_object_iff.mp hgrows
    cases hmembers with
    | @cons _ n _ _ hmn hrest =>
        cases hrest
        obtain ⟨l, w⟩ := n
        obtain ⟨rfl, hvalue⟩ := hmn
        rcases hvalue with hvalue | ⟨-, ys, more, heq, rfl⟩
        · obtain rfl : w = .array xs := (grows_iff_eq (by simp)).mp hvalue
          exact ⟨[], by rw [List.append_nil]⟩
        · cases heq
          exact ⟨more, rfl⟩
  rw [nodeForm_set_eq] at hform
  obtain ⟨ys, hys, heq⟩ := bind_eq_ok_iff.mp hform
  cases heq
  rw [nodeForm_set_eq, allForms_append, hys, ok_bind] at hform'
  obtain ⟨zs, hzs, heq⟩ := bind_eq_ok_iff.mp hform'
  cases heq
  obtain ⟨rest, hrest, heq⟩ := bind_eq_ok_iff.mp hzs
  cases heq
  refine ⟨grows_object_iff.mpr ⟨_, rfl, .cons ⟨rfl, .inr ⟨rfl, ys, rest, rfl, rfl⟩⟩ .nil⟩, fun heq => ?_⟩
  obtain rfl : rest = [] := by simpa using heq
  have hnil : List.Forall₂ (fun x y => nodeForm x = .ok y) more [] := allForms_eq_ok_iff.mp hrest
  cases hnil
  rw [List.append_nil]

section Node

variable {required : List Scalar} {vs : List Sample} {ms ns ps : Members} {it : Value}
  (outline : Outline required vs ms ps it)

include outline

theorem Outline.find?_unknown : ∀ w ∈ ["format", "title", "oneOf"], Members.find? (.str w) ms = none := by
  intro w hw
  refine outline.find?_eq_none fun hknown => ?_
  revert w
  decide

/-- Types and required names do not grow. -/
theorem Outline.find?_of_grows (hns : List.Forall₂ GrowsMember ms ns) :
    ∀ w ∈ ["type", "required"], Members.find? (.str w) ns = Members.find? (.str w) ms := by
  intro w hw
  have hset : w ≠ "oneOf" := fun heq => absurd (heq ▸ hw) (by decide)
  have hflat : ∀ v, Members.find? (.str w) ms = some v → IsFlat v := by
    intro v hv
    rcases List.mem_pair.mp hw with rfl | rfl
    · exact isFlat_of_typeEntry (outline.type.symm.trans hv)
    · exact isFlat_of_requiredEntry (outline.isRequired.symm.trans hv)
  have h := Inference.find?_of_grows hns (k := .str w) ⟨w, rfl⟩
  cases hms : Members.find? (.str w) ms with
  | none => exact eq_none_of_rel_none (hms ▸ h)
  | some v =>
      obtain ⟨u, hu, hgrows⟩ := exists_of_rel_some (hms ▸ h)
      rw [hu, hgrows.eq_of_isFlat (by simpa using hset) (hflat v hms)]

/-- Members that have grown are the same if they are so at the keywords of drafts. -/
theorem Outline.eq_of_grows (hns : List.Forall₂ GrowsMember ms ns)
    (hproperties : Members.find? (.str "properties") ns = Members.find? (.str "properties") ms)
    (hitems : Members.find? (.str "items") ns = Members.find? (.str "items") ms) : ns = ms := by
  refine eq_of_find?_eq (keys_of_grows hns) (fun m hm => outline.isText_of_mem hm) outline.unique
    fun k hk => ?_
  obtain ⟨w, hw, rfl⟩ := outline.known k hk
  simp only [nodeWords, List.mem_cons, List.not_mem_nil, or_false] at hw
  rcases hw with rfl | rfl | rfl | rfl
  · exact outline.find?_of_grows hns _ (by simp)
  · exact outline.find?_of_grows hns _ (by simp)
  · exact hproperties
  · exact hitems

/-- The finished form of a node shows growth if those of its parts do. -/
theorem Outline.showsGrowth (fields : ∀ m ∈ ps, ShowsGrowth m.2 ∧ ∃ ns, m.2 = .object ns)
    (elements : "array" ∈ types vs → ShowsGrowth it ∧ ∃ ns, it = .object ns) :
    ShowsGrowth (.object ms) := by
  intro node' form form' hgrows hform hform'
  obtain ⟨ns, rfl, hns⟩ := grows_object_iff.mp hgrows
  have hfind := fun w : String => Inference.find?_of_grows hns (k := .str w) ⟨w, rfl⟩
  have hnone := outline.find?_unknown
  have hnone' : ∀ w ∈ ["format", "title", "oneOf"], Members.find? (.str w) ns = none :=
    fun w hw => eq_none_of_rel_none (hnone w hw ▸ hfind w)
  obtain ⟨r, p, i, rfl, hr, hp, hi⟩ := exists_of_nodeForm_plain hnone hform
  obtain ⟨r', p', i', rfl, hr', hp', hi'⟩ := exists_of_nodeForm_plain hnone' hform'
  obtain ⟨hgrowsProperties, hsameProperties⟩ := grows_finishedProperties (hfind "properties")
    (fun qs hqs => by
      obtain ⟨-, heq⟩ := Option.ite_none_right_eq_some.mp (outline.properties.symm.trans hqs)
      cases heq
      exact fields) hp hp'
  obtain ⟨hgrowsItems, hsameItems⟩ := grows_finishedItems (hfind "items")
    (fun v hv => by
      obtain ⟨harray, heq⟩ := Option.ite_none_right_eq_some.mp (outline.items.symm.trans hv)
      cases heq
      exact elements harray) hi hi'
  have hrequired : entry "required" r' = entry "required" r := by
    rw [requiredForm, outline.find?_of_grows hns _ (by simp), ← requiredForm, hr] at hr'
    exact (Except.ok.inj hr').symm
  rw [outline.find?_of_grows hns "type" (by simp), hrequired]
  refine ⟨grows_object_iff.mpr ⟨_, rfl, grows_append (grows_append (grows_self _) ?_) ?_⟩, fun heq => ?_⟩
  · exact grows_entry hgrowsProperties
  · exact grows_entry hgrowsItems
  · have hlookup := fun w : String => congrArg (Members.find? (.str w)) (Value.object.inj heq)
    have hproperties : p' = p := by simpa [Members.find?_append] using hlookup "properties"
    have hitems : i' = i := by simpa [Members.find?_append] using hlookup "items"
    rw [outline.eq_of_grows hns (hsameProperties hproperties) (hsameItems hitems)]

end Node

/-- A draft that has grown has a finished form that has grown, and the same form only if it is the same. -/
theorem Describes.showsGrowth {place : Place} {vs : List Sample} {node : Value}
    (h : Describes place vs node) : ShowsGrowth node := by
  induction h with
  | node outline fields elements ihFields ihElements =>
      exact outline.showsGrowth (fun m hm => ⟨ihFields m hm, exists_of_describes (fields m hm)⟩)
        fun harray => ⟨ihElements harray, exists_of_describes (elements harray)⟩
  | uniform _ _ ih => exact ih
  | mixed _ _ _ _ _ _ => exact showsGrowth_set _

end SchemaForge.Inference
