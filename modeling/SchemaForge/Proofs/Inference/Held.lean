import SchemaForge.Proofs.Inference.Finishing
import SchemaForge.Proofs.Inference.Growth
import SchemaForge.Proofs.Inference.Widening

/-!
What a sample adds to a node that accepts it. Types, keys and required names stay as they are, and only sets
can grow: by the draft of an element on its own, where none of the variants is like it. So the node is the same
as before exactly if it holds the sample, sets of variants and their elements included.
-/

namespace SchemaForge.Inference

open Sample (types valuesAt elementsOf commonKeys)

/-- A node holds a sample: whatever the sample consists of is known, and where there is a set of variants one
of them is like the draft of the sample on its own. -/
inductive Holds : Value → Sample → Prop where
  | variant {ms : Members} {xs : List Value} {v : Sample} {c x : Value}
      (set : Members.find? (.str "oneOf") ms = some (.array xs)) (own : widen none v = .ok c) (mem : x ∈ xs)
      (isAlike : c.alike x = true) : Holds (.object ms) v
  | plain {ms : Members} {v : Sample} (noSet : Members.find? (.str "oneOf") ms = none)
      (declares : Declares ms v.type) (isPlain : v.isContainer = false) : Holds (.object ms) v
  | object {ms ps : Members} {fields : List (Scalar × Sample)}
      (noSet : Members.find? (.str "oneOf") ms = none) (declares : Declares ms "object")
      (properties : Members.find? (.str "properties") ms = some (.object ps))
      (known : ∀ m ∈ fields, ∃ p, Members.find? m.1 ps = some p)
      (values : ∀ m ∈ fields, ∀ p, Members.find? m.1 ps = some p → Holds p m.2)
      (required : RequiresAmong ms (fields.map (·.1))) : Holds (.object ms) (.object fields)
  | array {ms : Members} {items : Value} {xs : List Sample}
      (noSet : Members.find? (.str "oneOf") ms = none) (declares : Declares ms "array")
      (isItems : Members.find? (.str "items") ms = some items)
      (elements : ∀ x ∈ xs, Holds items x) : Holds (.object ms) (.array xs)

/-! ### Changes -/

/-- A value that has grown, unless something holds. -/
structure Changes (v w : Value) (p : Prop) : Prop where
  grows : Grows v w
  same_iff : w = v ↔ p

namespace Changes

theorem of_eq {v w : Value} {p : Prop} (heq : w = v) (hp : p) : Changes v w p := by
  subst heq
  exact ⟨.refl w, iff_of_true rfl hp⟩

theorem congr {v w : Value} {p q : Prop} (h : Changes v w p) (hpq : p ↔ q) : Changes v w q :=
  ⟨h.grows, h.same_iff.trans hpq⟩

/-- In two steps a value stays as it is only if it does so in each. -/
theorem trans {a b c : Value} {p : Prop} {q : Value → Prop} (hab : Changes a b p)
    (hbc : Changes b c (q b)) : Changes a c (p ∧ q a) := by
  refine ⟨hab.grows.trans hbc.grows, fun heq => ?_, fun ⟨hp, hq⟩ => ?_⟩
  · have hba : b = a := hab.grows.antisymm (heq ▸ hbc.grows)
    have hcb : c = b := heq.trans hba.symm
    exact ⟨hab.same_iff.mp hba, hba ▸ hbc.same_iff.mp hcb⟩
  · have hba : b = a := hab.same_iff.mpr hp
    subst hba
    exact hbc.same_iff.mpr hq

/-- A change of the value at one key. -/
theorem insert {k : Scalar} (hk : k.IsText) {v w : Value} {p : Prop} (h : Changes v w p) {ms : Members}
    (hfind : Members.find? k ms = some v) :
    Changes (.object ms) (.object (Members.insert k w ms)) p := by
  refine ⟨grows_insert hk (.inl h.grows) hfind, fun heq => ?_, fun hp => ?_⟩
  · have hself := Members.find?_insert_self k w ms
    rw [Value.object.inj heq, hfind] at hself
    exact h.same_iff.mp (Option.some.inj hself).symm
  · rw [h.same_iff.mpr hp, Members.insert_of_find? hfind]

end Changes

/-! ### Sets -/

theorem exists_addVariants (nodes cs : List Value) : ∃ more, addVariants nodes cs = nodes ++ more := by
  obtain ⟨more, heq⟩ := prefix_addVariants nodes cs
  exact ⟨more, heq.symm⟩

/-- A set stays as it is if each of the candidates is like one of its variants. -/
theorem addVariants_eq_self_iff {nodes cs : List Value} :
    addVariants nodes cs = nodes ↔ ∀ c ∈ cs, ∃ n ∈ nodes, c.alike n = true := by
  induction cs with
  | nil => simp [addVariants]
  | cons c cs ih =>
      rw [List.forall_mem_cons, ← ih, ← List.any_eq_true, addVariants]
      by_cases hany : nodes.any (c.alike ·) = true
      · rw [if_pos hany, and_iff_right hany]
      · refine iff_of_false (fun heq => ?_) fun h => hany h.1
        obtain ⟨more, hmore⟩ := exists_addVariants (nodes ++ [c]) cs
        rw [if_neg hany, hmore] at heq
        simp at heq

theorem changes_set (nodes cs : List Value) :
    Changes (.object [(.str "oneOf", .array nodes)]) (.object [(.str "oneOf", .array (addVariants nodes cs))])
      (∀ c ∈ cs, ∃ n ∈ nodes, c.alike n = true) := by
  obtain ⟨more, hmore⟩ := exists_addVariants nodes cs
  refine ⟨grows_object_iff.mpr ⟨_, rfl, .cons ⟨rfl, .inr ⟨rfl, nodes, more, rfl, ?_⟩⟩ .nil⟩, ?_⟩
  · rw [hmore]
  · rw [← addVariants_eq_self_iff]
    simp

theorem holds_set_iff {nodes : List Value} {v : Sample} {c : Value} (hc : widen none v = .ok c) :
    Holds (.object [(.str "oneOf", .array nodes)]) v ↔ ∃ n ∈ nodes, c.alike n = true := by
  constructor
  · intro h
    cases h with
    | variant set own mem isAlike =>
        rw [hc] at own
        cases own
        simp only [Members.find?_singleton_str, if_true, Option.some.injEq, Value.array.injEq] at set
        exact ⟨_, set ▸ mem, isAlike⟩
    | plain noSet _ _ => simp at noSet
    | object noSet _ _ _ _ _ => simp at noSet
    | array noSet _ _ _ => simp at noSet
  · rintro ⟨n, hn, halike⟩
    exact .variant (by simp) hc hn halike

theorem variants_eq_ok_iff {xs : List Sample} {cs : List Value} :
    variants xs = .ok cs ↔ List.Forall₂ (fun x c => widen none x = .ok c) xs cs := by
  induction xs generalizing cs with
  | nil => cases cs <;> simp [variants]
  | cons x xs ih =>
      rw [variants]
      simp only [bind_eq_ok_iff, pure_eq_ok, Except.ok.injEq, List.forall₂_cons_left_iff, ih]
      constructor
      · rintro ⟨c, hc, cs, hcs, rfl⟩
        exact ⟨c, cs, hc, hcs, rfl⟩
      · rintro ⟨c, cs, hc, hcs, rfl⟩
        exact ⟨c, hc, cs, hcs, rfl⟩

theorem forall_holds_set_iff {nodes cs : List Value} {xs : List Sample} (h : variants xs = .ok cs) :
    (∀ x ∈ xs, Holds (.object [(.str "oneOf", .array nodes)]) x) ↔
      ∀ c ∈ cs, ∃ n ∈ nodes, c.alike n = true := by
  have hown := variants_eq_ok_iff.mp h
  constructor
  · intro hheld c hc
    obtain ⟨x, hx, hxc⟩ := exists_left_of_mem hown hc
    exact (holds_set_iff hxc).mp (hheld x hx)
  · intro halike x hx
    obtain ⟨c, hc, hxc⟩ := exists_right_of_mem hown hx
    exact (holds_set_iff hxc).mpr (halike c hc)

/-! ### One sample -/

/-- What widening by an accepted sample does: a node that does not hold the sample grows. -/
def GrowsUnlessHeld (v : Sample) : Prop :=
  ∀ {required : List Scalar} {vs : List Sample} {node node' : Value}, (∀ u ∈ vs, u.IsJson) →
    Describes (.node required) vs node → Accepts node v → widenNode node v = .ok node' →
      Changes node node' (Holds node v)

section Node

variable {required : List Scalar} {vs : List Sample} {ms ps : Members} {it : Value}
  (outline : Outline required vs ms ps it)

include outline

theorem Outline.holds_object_iff {fields : List (Scalar × Sample)} :
    Holds (.object ms) (.object fields) ↔ "object" ∈ types vs ∧
      (∀ m ∈ fields, ∃ p, Members.find? m.1 ps = some p ∧ Holds p m.2) ∧
      ∀ k ∈ required, k ∈ fields.map (·.1) := by
  constructor
  · intro hheld
    cases hheld with
    | variant set _ _ _ => simp [outline.find?_oneOf] at set
    | plain _ _ isPlain => simp [Sample.isContainer] at isPlain
    | object _ declares properties known values requires =>
        have hobject := outline.declares_iff.mp declares
        rw [outline.find?_properties hobject] at properties
        cases properties
        refine ⟨hobject, fun m hm => ?_, outline.requiresAmong_iff.mp requires⟩
        obtain ⟨p, hp⟩ := known m hm
        exact ⟨p, hp, values m hm p hp⟩
  · rintro ⟨hobject, values, hrequired⟩
    refine .object outline.find?_oneOf (outline.declares_iff.mpr hobject)
      (outline.find?_properties hobject) (fun m hm => ?_) (fun m hm p hp => ?_)
      (outline.requiresAmong_iff.mpr hrequired)
    · obtain ⟨p, hp, -⟩ := values m hm
      exact ⟨p, hp⟩
    · obtain ⟨q, hq, hheld⟩ := values m hm
      rw [hp] at hq
      cases hq
      exact hheld

theorem Outline.holds_array_iff {xs : List Sample} :
    Holds (.object ms) (.array xs) ↔ "array" ∈ types vs ∧ ∀ x ∈ xs, Holds it x := by
  constructor
  · intro hheld
    cases hheld with
    | variant set _ _ _ => simp [outline.find?_oneOf] at set
    | plain _ _ isPlain => simp [Sample.isContainer] at isPlain
    | array _ declares isItems elements =>
        have harray := outline.declares_iff.mp declares
        rw [outline.find?_items harray] at isItems
        cases isItems
        exact ⟨harray, elements⟩
  · rintro ⟨harray, elements⟩
    exact .array outline.find?_oneOf (outline.declares_iff.mpr harray) (outline.find?_items harray)
      elements

/-- A type that was seen before is listed already. -/
theorem insert_type_of_mem {v : Sample} {t : Value} (hv : v.type ∈ types vs)
    (ht : typeEntry (types (vs ++ [v])) = some t) : Members.insert (.str "type") t ms = ms := by
  rw [Sample.types_append_of_mem (by simpa using hv), ← outline.type] at ht
  exact Members.insert_of_find? ht

theorem changes_plain {v : Sample} {node' : Value} (hv : v.isContainer = false)
    (haccepts : Accepts (.object ms) v) (hnode : widenNode (.object ms) v = .ok node') :
    Changes (.object ms) node' (Holds (.object ms) v) := by
  have hdeclares := declares_of_accepts outline.find?_oneOf haccepts
  obtain ⟨t, ht, heq⟩ := widenNode_plain outline hv
  rw [hnode, insert_type_of_mem outline (outline.declares_iff.mp hdeclares) ht] at heq
  cases heq
  exact .of_eq rfl (.plain outline.find?_oneOf hdeclares hv)

end Node

/-- The values of an object at properties that accept them. -/
theorem changes_properties {fields : List (Scalar × Sample)} (hjson : (Sample.object fields).IsJson)
    (ih : ∀ m ∈ fields, GrowsUnlessHeld m.2) :
    ∀ {ps qs : Members}, (∀ m ∈ fields, ∃ p vs, Members.find? m.1 ps = some p ∧ (∀ v ∈ vs, v.IsJson) ∧
        Describes (.node []) vs p ∧ Accepts p m.2) →
      widenProperties fields ps = .ok qs →
        Changes (.object ps) (.object qs)
          (∀ m ∈ fields, ∃ p, Members.find? m.1 ps = some p ∧ Holds p m.2) := by
  induction fields with
  | nil =>
      intro ps qs _ h
      rw [widenProperties] at h
      cases h
      exact .of_eq rfl (List.forall_mem_nil _)
  | cons m fields ihFields =>
      intro ps qs hfields h
      obtain ⟨k, v⟩ := m
      obtain ⟨text, -, values⟩ := Sample.isJson_object_iff.mp hjson
      obtain ⟨⟨p, vs, hp, hvs, hdescribes, haccepts⟩, hrest⟩ := List.forall_mem_cons.mp hfields
      have hnull : Members.find? k ps ≠ some .null := by
        obtain ⟨os, rfl⟩ := exists_of_describes hdescribes
        simp [hp]
      rw [widenProperties_cons fields (values _ List.mem_cons_self) hnull, hp, Option.getD_some] at h
      obtain ⟨node, hnode, h⟩ := bind_eq_ok_iff.mp h
      have hother := find?_insert_first hjson node ps
      have hfirst : Changes (.object ps) (.object (Members.insert k node ps)) (Holds p v) :=
        (ih _ List.mem_cons_self hvs hdescribes haccepts hnode).insert (text _ List.mem_cons_self) hp
      have hothers := ihFields (isJson_further hjson) (fun n hn => ih n (List.mem_cons_of_mem _ hn))
        (fun n hn => hother n hn ▸ hrest n hn) h
      refine (hfirst.trans (q := fun _ => _) hothers).congr ?_
      rw [List.forall_mem_cons]
      refine and_congr ⟨fun hheld => ⟨p, hp, hheld⟩, ?_⟩ ?_
      · rintro ⟨q, hq, hheld⟩
        rw [hp] at hq
        cases hq
        exact hheld
      · exact forall₂_congr fun n hn => by rw [hother n hn]

theorem growsUnlessHeld_object {fields : List (Scalar × Sample)} (hjson : (Sample.object fields).IsJson)
    (ih : ∀ m ∈ fields, GrowsUnlessHeld m.2) : GrowsUnlessHeld (.object fields) := by
  intro required vs node node' hvs hdescribes haccepts hnode
  cases hdescribes with
  | @node _ _ ms ps it outline describes _ =>
      obtain ⟨hobject, haccepts, hrequired⟩ := outline.accepts_object_iff.mp haccepts
      obtain ⟨t, ht, heq⟩ := widenNode_object outline fields
      rw [hnode, insert_type_of_mem (v := .object fields) outline hobject ht] at heq
      obtain ⟨qs, hqs, heq⟩ := bind_eq_ok_iff.mp heq.symm
      cases heq
      have htext := (Sample.isJson_object_iff.mp hjson).1
      have hparts := changes_properties hjson ih (fun m hm => by
        obtain ⟨p, hp, haccepts⟩ := haccepts m hm
        exact ⟨p, valuesAt m.1 vs, hp, fun w hw => Sample.isJson_of_mem_valuesAt hvs hw,
          describes _ (Members.mem_of_find? (htext m hm) hp), haccepts⟩) hqs
      refine (hparts.insert ⟨_, rfl⟩ (outline.find?_properties hobject)).congr ?_
      rw [outline.holds_object_iff]
      exact ⟨fun hheld => ⟨hobject, hheld, hrequired⟩, fun hheld => hheld.2.1⟩

/-! ### Elements -/

theorem changes_widenEach {xs : List Sample} (hxs : ∀ x ∈ xs, x.IsJson)
    (ih : ∀ x ∈ xs, GrowsUnlessHeld x) :
    ∀ {required : List Scalar} {vs : List Sample} {node node' : Value}, (∀ v ∈ vs, v.IsJson) →
      Describes (.node required) vs node → (∀ x ∈ xs, Accepts node x) → widenEach xs node = .ok node' →
        Changes node node' (∀ x ∈ xs, Holds node x) := by
  induction xs with
  | nil =>
      intro required vs node node' _ _ _ hnode
      cases hnode
      exact .of_eq rfl (by simp)
  | cons x xs ihxs =>
      intro required vs node node' hvs hdescribes haccepts hnode
      obtain ⟨hx, hrest⟩ := List.forall_mem_cons.mp hxs
      obtain ⟨ihx, ih⟩ := List.forall_mem_cons.mp ih
      obtain ⟨hxaccepts, haccepts⟩ := List.forall_mem_cons.mp haccepts
      obtain ⟨middle, hmiddle, hdescribes'⟩ := widens_of_isJson hx hvs hdescribes
      rw [widenEach, hmiddle, ok_bind] at hnode
      have hvs' : ∀ v ∈ vs ++ [x], v.IsJson :=
        List.forall_mem_append.mpr ⟨hvs, List.forall_mem_singleton.mpr hx⟩
      -- What the node accepts it still accepts after the first of the samples.
      have hcovers := widensAcceptance_of_isJson hx hvs hdescribes hmiddle
      have hothers := ihxs hrest ih hvs' hdescribes' (fun y hy => hcovers y (haccepts y hy)) hnode
      have hboth := (ihx hvs hdescribes hxaccepts hmiddle).trans
        (q := fun node => ∀ y ∈ xs, Holds node y) hothers
      exact hboth.congr List.forall_mem_cons.symm

/-- The names that a node requires, set once more. -/
theorem withRequired_same {required : List Scalar} {vs : List Sample} {ms ps : Members} {it : Value}
    (outline : Outline required vs ms ps it) :
    withRequired (some (required.map .scalar)) (.object ms) = .ok (.object ms) := by
  have hfind := outline.isRequired
  cases required with
  | nil =>
      have hnone : Members.has (.str "required") ms = false := by simp [Members.has, hfind, requiredEntry]
      simp only [withRequired, List.map_nil, Value.members_object, ok_bind, pure_eq_ok,
        Members.erase_of_not_has hnone]
  | cons k ks =>
      have hsame := Members.insert_of_find? hfind
      simp only [withRequired, List.map_cons, Value.members_object, ok_bind, pure_eq_ok] at hsame ⊢
      rw [hsame]

section Items

variable {ws xs : List Sample} {ms ps : Members} {it node' : Value} (hws : ∀ w ∈ ws, w.IsJson)
  (hxs : ∀ x ∈ xs, x.IsJson) (ih : ∀ x ∈ xs, GrowsUnlessHeld x)

include hws hxs ih

theorem changes_widenItems_uniform (few : (types ws).length ≤ 1)
    (describes : Describes (.node (commonKeys ws)) ws (.object ms))
    (outline : Outline (commonKeys ws) ws ms ps it) (haccepts : ∀ x ∈ xs, Accepts (.object ms) x)
    (hnode : widenItems (.object ms) xs = .ok node') :
    Changes (.object ms) node' (∀ x ∈ xs, Holds (.object ms) x) := by
  have hdeclares : ∀ x ∈ xs, Declares ms x.type := fun x hx =>
    declares_of_accepts outline.find?_oneOf (haccepts x hx)
  have hmem : ∀ x ∈ xs, x.type ∈ types ws := fun x hx => outline.declares_iff.mp (hdeclares x hx)
  have htypes : types (ws ++ xs) = types ws := Sample.types_append_of_mem hmem
  cases widensUniform_of_widenItems hws hxs few outline hnode with
  | none isEmpty same =>
      have hnil : xs = [] :=
        (List.append_eq_nil_iff.mp (Sample.types_eq_nil_iff.mp isEmpty)).2
      exact .of_eq same (by simp [hnil])
  | @objects middle areObjects each narrowed =>
      have hne : ws ≠ [] := fun hnil => by
        rw [htypes, hnil] at areObjects
        cases areObjects
      -- The objects carry all names that are required, so they drop none.
      have hkeys : commonKeys (ws ++ xs) = commonKeys ws := by
        refine Sample.commonKeys_append_of_carries hne fun x hx => ?_
        obtain ⟨fields, rfl⟩ := Sample.type_eq_object_iff.mp
          (Sample.type_of_types_eq areObjects (List.mem_append_right _ hx))
        exact (outline.accepts_object_iff.mp (haccepts _ hx)).2.2
      obtain ⟨_, heq, hdescribes⟩ := widenEach_describes hxs hws describes
      rw [each] at heq
      cases heq
      obtain ⟨os, rfl⟩ := exists_of_describes hdescribes
      obtain ⟨_, _, outline'⟩ := hdescribes.exists_outline
      rw [requiredNames_of_ne_nil (by simp [hne]), hkeys, withRequired_same outline'] at narrowed
      cases narrowed
      exact changes_widenEach hxs ih hws describes haccepts each
  | arrays _ each => exact changes_widenEach hxs ih hws describes haccepts each
  | @scalars t areScalars notObject notArray named =>
      have htype : Members.find? (.str "type") ms = some (.str t) := by
        rw [outline.type, ← htypes, areScalars, typeEntry]
      rw [Members.insert_of_find? htype] at named
      refine .of_eq named fun x hx => .plain outline.find?_oneOf (hdeclares x hx) ?_
      have hxtype := Sample.type_of_types_eq areScalars (List.mem_append_right _ hx)
      cases x with
      | array _ => exact absurd hxtype.symm notArray
      | object _ => exact absurd hxtype.symm notObject
      | scalar s => rfl
      | foreign f => rfl
  | mixed many _ _ =>
      rw [htypes] at many
      omega

theorem changes_widenItems (hdescribes : Describes .items ws it) (haccepts : ∀ x ∈ xs, Accepts it x)
    (hnode : widenItems it xs = .ok node') : Changes it node' (∀ x ∈ xs, Holds it x) := by
  cases hdescribes with
  | uniform few describes =>
      obtain ⟨ms, rfl⟩ := exists_of_describes describes
      obtain ⟨ps, it, outline⟩ := describes.exists_outline
      exact changes_widenItems_uniform hws hxs ih few describes outline haccepts hnode
  | mixed _ _ _ _ _ =>
      rw [widenItems_set] at hnode
      obtain ⟨cs, hcs, hnode⟩ := bind_eq_ok_iff.mp hnode
      cases hnode
      exact (changes_set _ cs).congr (forall_holds_set_iff hcs).symm

end Items

theorem growsUnlessHeld_array {xs : List Sample} (hxs : ∀ x ∈ xs, x.IsJson)
    (ih : ∀ x ∈ xs, GrowsUnlessHeld x) : GrowsUnlessHeld (.array xs) := by
  intro required vs node node' hvs hdescribes haccepts hnode
  cases hdescribes with
  | @node _ _ ms ps it outline _ elements =>
      obtain ⟨harray, haccepts⟩ := outline.accepts_array_iff.mp haccepts
      obtain ⟨t, ht, heq⟩ := widenNode_array outline xs
      rw [hnode, openItems_eq outline harray (elements harray),
        insert_type_of_mem (v := .array xs) outline harray ht] at heq
      obtain ⟨items, hitems, heq⟩ := bind_eq_ok_iff.mp heq.symm
      cases heq
      have hparts := changes_widenItems (fun w hw => Sample.isJson_of_mem_elementsOf hvs hw) hxs ih
        (elements harray) haccepts hitems
      refine (hparts.insert ⟨_, rfl⟩ (outline.find?_items harray)).congr ?_
      rw [outline.holds_array_iff, and_iff_right harray]

theorem growsUnlessHeld_of_isJson {v : Sample} (hv : v.IsJson) : GrowsUnlessHeld v := by
  induction hv with
  | scalar s =>
      intro required vs node node' hvs hdescribes haccepts hnode
      obtain ⟨ms, rfl⟩ := exists_of_describes hdescribes
      obtain ⟨_, _, outline⟩ := hdescribes.exists_outline
      exact changes_plain outline rfl haccepts hnode
  | array elements ih => exact growsUnlessHeld_array elements ih
  | object text unique values ih => exact growsUnlessHeld_object (.object text unique values) ih

end SchemaForge.Inference
