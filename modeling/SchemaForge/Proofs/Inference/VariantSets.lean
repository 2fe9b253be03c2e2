import SchemaForge.Proofs.Inference.Filled
import SchemaForge.Proofs.Path.Lens

/-!
What sets of variants hold more than once. Candidates are compared as drafts, and a draft joins a set only if
it is like none that is there; what a schema shows are the finished forms. So two variants of a set are alike
exactly if their drafts are once missing items are filled in, and a set repeats itself only through arrays
that no element was met for.
-/

namespace SchemaForge.Inference

open Sample (types valuesAt elementsOf commonKeys)

/-- Every list at the key `oneOf`, anywhere in a value, is as `P` says. -/
def EachSet (P : List Value → Prop) (v : Value) : Prop :=
  ∀ (path : Path) (ys : List Value), v.get (path ++ [.str "oneOf"]) = .ok (.array ys) → P ys

/-- A sample that occurs in another one, as an element or a field at any depth. -/
inductive OccursIn (root : Sample) : Sample → Prop where
  | self : OccursIn root root
  | element {xs : List Sample} {x : Sample} (occurs : OccursIn root (.array xs)) (mem : x ∈ xs) :
      OccursIn root x
  | field {ms : List (Scalar × Sample)} {m : Scalar × Sample} (occurs : OccursIn root (.object ms))
      (mem : m ∈ ms) : OccursIn root m.2

/-- A variant is what widening by some samples of one type leads to, all of which occur in a sample. -/
structure Variant.IsDraftIn (g : Variant) (root : Sample) : Prop where
  occur : ∀ v ∈ g.samples, OccursIn root v
  oneType : (types g.samples).length = 1
  isRequired : g.required = [] ∨ g.required = commonKeys g.samples
  describes : Describes (.node g.required) g.samples g.node

/-- What holds of the variants of a set in the schema of a sample: they are finished forms of drafts of what occurs
in the sample, no two of the drafts are alike, and two variants are alike exactly if their drafts are once missing
items are filled in. If all arrays of the sample have elements, there is nothing to fill in, and no two variants
are alike. -/
structure DistinctSet (root : Sample) (ys : List Value) : Prop where
  drafts : ∃ entries : List (Variant × Value), ys = entries.map (·.2) ∧
    (∀ e ∈ entries, e.1.IsDraftIn root ∧ nodeForm e.1.node = .ok e.2) ∧
      entries.Pairwise fun a b =>
        a.1.node.alike b.1.node = false ∧ a.2.alike b.2 = (filled a.1.node).alike (filled b.1.node)
  distinct : root.NonemptyArrays → ys.Pairwise fun a b => a.alike b = false

theorem OccursIn.of_mem_valuesAt {root : Sample} {k : Scalar} {vs : List Sample} (hvs : ∀ v ∈ vs, OccursIn root v)
    {w : Sample} (h : w ∈ valuesAt k vs) : OccursIn root w := by
  obtain ⟨ms, hv, hm⟩ := Sample.exists_of_mem_valuesAt h
  exact .field (hvs _ hv) hm

theorem OccursIn.of_mem_elementsOf {root : Sample} {vs : List Sample} (hvs : ∀ v ∈ vs, OccursIn root v) {w : Sample}
    (h : w ∈ elementsOf vs) : OccursIn root w := by
  obtain ⟨xs, hv, hw⟩ := Sample.exists_of_mem_elementsOf h
  exact .element (hvs _ hv) hw

/-! ### Sets anywhere in a value -/

section Anywhere

variable {P : List Value → Prop}

theorem eachSet_scalar (s : Scalar) : EachSet P (.scalar s) := by
  intro path ys h
  obtain ⟨segment, rest, hpath⟩ := List.exists_cons_of_ne_nil (List.append_ne_nil_of_right_ne_nil path
    (List.cons_ne_nil (Value.str "oneOf") []))
  rw [hpath] at h
  obtain ⟨c, hc, -⟩ := Value.get_cons_eq_ok_iff.mp h
  simp [Value.child] at hc

theorem eachSet_array {xs : List Value} (h : ∀ x ∈ xs, EachSet P x) : EachSet P (.array xs) := by
  intro path ys hget
  cases path with
  | nil =>
      obtain ⟨c, hc, -⟩ := Value.get_cons_eq_ok_iff.mp hget
      simp [Value.child] at hc
  | cons segment path =>
      obtain ⟨c, hc, hrest⟩ := Value.get_cons_eq_ok_iff.mp hget
      rcases Value.exists_of_child hc with ⟨_, _, heq, -, -⟩ | ⟨_, i, n, heq, -, -, hn⟩
      · cases heq
      · cases heq
        exact h c (List.mem_of_getElem? hn) path ys hrest

theorem eachSet_object_iff {ms : Members} :
    EachSet P (.object ms) ↔ (∀ k v, Members.find? k ms = some v → EachSet P v) ∧
      ∀ ys, Members.find? (.str "oneOf") ms = some (.array ys) → P ys := by
  have hchild : ∀ k v, Members.find? k ms = some v → (Value.object ms).child (.scalar k) = .ok (some v) := by
    intro k v hv
    simp [Value.child, hv]
  constructor
  · intro h
    refine ⟨fun k v hv path ys hget => ?_, fun ys hset => ?_⟩
    · exact h (.scalar k :: path) ys (Value.get_cons_eq_ok_iff.mpr ⟨v, hchild k v hv, hget⟩)
    · exact h [] ys (Value.get_cons_eq_ok_iff.mpr ⟨_, hchild _ _ hset, rfl⟩)
  · rintro ⟨members, set⟩ path ys hget
    cases path with
    | nil =>
        obtain ⟨c, hc, hrest⟩ := Value.get_cons_eq_ok_iff.mp hget
        cases hrest
        rcases Value.exists_of_child hc with ⟨_, k, heq, hk, hfind⟩ | ⟨_, _, _, heq, -⟩
        · cases heq
          cases hk
          exact set ys hfind
        · cases heq
    | cons segment path =>
        obtain ⟨c, hc, hrest⟩ := Value.get_cons_eq_ok_iff.mp hget
        rcases Value.exists_of_child hc with ⟨_, k, heq, -, hfind⟩ | ⟨_, _, _, heq, -⟩
        · cases heq
          exact members k c hfind path ys hrest
        · cases heq

theorem eachSet_object {ms : Members} (members : ∀ m ∈ ms, EachSet P m.2)
    (set : ∀ ys, Members.find? (.str "oneOf") ms = some (.array ys) → P ys) :
    EachSet P (.object ms) := by
  refine eachSet_object_iff.mpr ⟨fun k v hv => ?_, set⟩
  obtain ⟨l, hl, -⟩ := Members.exists_mem_of_find? hv
  exact members _ hl

/-- A text at a key brings no set. -/
theorem EachSet.insert_str {ms : Members} (h : EachSet P (.object ms)) (word text : String) :
    EachSet P (.object (Members.insert (.str word) (.str text) ms)) := by
  obtain ⟨members, set⟩ := eachSet_object_iff.mp h
  refine eachSet_object_iff.mpr ⟨fun k v hv => ?_, fun ys hys => ?_⟩
  · by_cases hsame : (Scalar.str word).same k = true
    · rw [Scalar.same_comm, Scalar.same_str_iff] at hsame
      rw [hsame, Members.find?_insert_self] at hv
      cases hv
      exact eachSet_scalar _
    · rw [Bool.not_eq_true] at hsame
      rw [Members.find?_insert_of_not_same hsame] at hv
      exact members k v hv
  · rw [Members.find?_insert_str] at hys
    split at hys
    · cases hys
    · exact set ys hys

theorem IsFlat.eachSet {v : Value} (h : IsFlat v) : EachSet P v := by
  cases h with
  | scalar s => exact eachSet_scalar s
  | array ks =>
      refine eachSet_array fun x hx => ?_
      obtain ⟨k, -, rfl⟩ := List.mem_map.mp hx
      exact eachSet_scalar k

end Anywhere

/-! ### Finished nodes -/

/-- The finished forms of a set of drafts. -/
theorem distinctSet_of_finishes {root : Sample} {entries : List (Variant × Value)}
    (drafts : ∀ e ∈ entries, e.1.IsDraftIn root)
    (forms : ∀ e ∈ entries, nodeForm e.1.node = .ok e.2)
    (json : ∀ e ∈ entries, e.1.node.IsJson)
    (likes : ∀ e ∈ entries, (filled e.1.node).alike e.2 = true)
    (whole : root.NonemptyArrays → ∀ e ∈ entries, filled e.1.node = e.1.node)
    (distinct : (entries.map (·.1.node)).Pairwise fun a b => b.alike a = false) :
    DistinctSet root (entries.map (·.2)) := by
  have hforms : ∀ a ∈ entries, ∀ b ∈ entries,
      a.2.alike b.2 = (filled a.1.node).alike (filled b.1.node) := fun a ha b hb =>
    (Value.alike_congr (isJson_filled (json a ha)) (isJson_filled (json b hb)) (likes a ha)
      (likes b hb)).symm
  have hdrafts : entries.Pairwise fun a b => a.1.node.alike b.1.node = false :=
    (List.pairwise_map.mp distinct).imp_of_mem fun ha hb h =>
      (Value.alike_comm (json _ ha) (json _ hb)).trans h
  refine ⟨⟨entries, rfl, fun e he => ⟨drafts e he, forms e he⟩, ?_⟩, fun hfull => ?_⟩
  · exact hdrafts.imp_of_mem fun ha hb h => ⟨h, hforms _ ha _ hb⟩
  · rw [List.pairwise_map]
    refine hdrafts.imp_of_mem fun ha hb h => ?_
    rw [hforms _ ha _ hb, whole hfull _ ha, whole hfull _ hb, h]

theorem Finishes.eachSet {root : Sample} {place : Place} {vs : List Sample} {node node' : Value}
    (h : Finishes place vs node node') (hvs : ∀ v ∈ vs, v.IsJson) (occur : ∀ v ∈ vs, OccursIn root v)
    (hfull : root.NonemptyArrays → ∀ v ∈ vs, v.NonemptyArrays) : EachSet (DistinctSet root) node' := by
  induction h with
  | missing => exact eachSet_object (by simp [eachSet_scalar]) (by simp)
  | @node required vs ms ns ps qs it it' _ _ draft form fields _ ihFields ihElements =>
      refine eachSet_object (fun n hn => ?_) (by simp [form.find?_oneOf])
      rcases form.cases_of_mem hn with ⟨-, htype⟩ | ⟨-, hrequired⟩ | ⟨-, -, hqs⟩ | ⟨-, harray, hit⟩
      · exact (isFlat_of_typeEntry htype).eachSet
      · exact (isFlat_of_requiredEntry hrequired).eachSet
      · rw [hqs]
        refine eachSet_object (fun q hq => ?_) fun ys hys => ?_
        · obtain ⟨p, hp, hkey⟩ := form.exists_same_key draft hq
          exact ihFields p hp q hq hkey.symm (fun w hw => Sample.isJson_of_mem_valuesAt hvs hw)
            (fun w hw => .of_mem_valuesAt occur hw)
            fun h w hw => Sample.nonemptyArrays_of_mem_valuesAt (hfull h) hw
        · -- A field may be called `oneOf`, but its node is no list.
          have hq := Members.mem_of_find? ⟨_, rfl⟩ hys
          obtain ⟨p, hp, hkey⟩ := form.exists_same_key draft hq
          obtain ⟨_, heq, -⟩ := (fields p hp _ hq hkey.symm).isObject
          cases heq
      · rw [hit]
        exact ihElements harray (fun w hw => Sample.isJson_of_mem_elementsOf hvs hw)
          (fun w hw => .of_mem_elementsOf occur hw)
          fun h w hw => Sample.nonemptyArrays_of_mem_elementsOf (hfull h) hw
  | uniform _ _ ih => exact ih hvs occur hfull
  | @mixed ws entries _ _ fits describes forms finishes distinct ih =>
      have hjson : ∀ e ∈ entries, ∀ v ∈ e.1.samples, v.IsJson := fun e he v hv =>
        hvs v ((fits e he).among hv)
      have hoccur : ∀ e ∈ entries, ∀ v ∈ e.1.samples, OccursIn root v := fun e he v hv =>
        occur v ((fits e he).among hv)
      have hwhole : root.NonemptyArrays → ∀ e ∈ entries, ∀ v ∈ e.1.samples, v.NonemptyArrays :=
        fun h e he v hv => hfull h v ((fits e he).among hv)
      have hset : DistinctSet root (entries.map (·.2)) := by
        refine distinctSet_of_finishes (fun e he => ?_) forms
          (fun e he => (describes e he).isJson (hjson e he)) (fun e he => ?_) (fun h e he => ?_) distinct
        · exact ⟨hoccur e he, (fits e he).oneType, (fits e he).isRequired, describes e he⟩
        · exact (finishes e he).alike_of_met (hjson e he) (fits e he).samples_ne_nil
        · exact (finishes e he).filled_eq_self (hjson e he) (hwhole h e he) (fits e he).samples_ne_nil
      refine eachSet_object ?_ fun ys hys => ?_
      · simp only [List.mem_singleton, forall_eq]
        refine eachSet_array fun x hx => ?_
        obtain ⟨e, he, rfl⟩ := List.mem_map.mp hx
        exact ih e he (hjson e he) (hoccur e he) fun h => hwhole h e he
      · cases hys
        exact hset

/-! ### The root -/

theorem eachSet_heading_append {P : List Value → Prop} (kind : Kind) (title : Option String)
    {word : String} (hword : word ≠ "oneOf") {v : Value} (hv : EachSet P v) :
    EachSet P (.object (heading kind title ++ [(.str word, v)])) := by
  refine eachSet_object (fun m hm => ?_) fun ys hys => ?_
  · rcases List.mem_append.mp hm with hm | hm
    · obtain ⟨s, hs⟩ := exists_text_of_mem_heading hm
      exact hs ▸ eachSet_scalar _
    · rw [List.mem_singleton.mp hm]
      exact hv
  · rw [find?_heading_append _ _ _ _ _ (by decide)] at hys
    simp [hword.symm] at hys

theorem eachSet_entitle {P : List Value → Prop} (title : Option String) {items : Members}
    (hitems : EachSet P (.object items)) :
    EachSet P (.object (entitle title items (heading .array title))) := by
  have hplain : ∀ is, EachSet P (.object is) →
      EachSet P (.object (heading .array title ++ [(.str "items", .object is)])) := fun is his =>
    eachSet_heading_append .array title (by decide) his
  unfold entitle
  split
  · exact hplain items hitems
  · split
    · exact hplain items hitems
    · exact (hplain _ (hitems.insert_str "title" _)).insert_str "title" _

/-- In every set of the schema of a JSON sample the variants are the finished drafts of elements, two of which are
alike exactly if the drafts are once missing items are filled in; and no two are if all arrays of the sample have
elements. -/
theorem inferSchema_distinct {v : Sample} (hv : v.IsJson) (title : Option String) :
    ∃ schema, inferSchema v title = .ok schema ∧ EachSet (DistinctSet v) schema := by
  cases hv with
  | scalar s =>
      refine ⟨_, rfl, eachSet_object (fun m hm => ?_) fun ys hys => ?_⟩
      · obtain ⟨t, ht⟩ := exists_text_of_mem_heading hm
        exact ht ▸ eachSet_scalar _
      · rw [find?_heading _ _ (by decide)] at hys
        simp at hys
  | @array xs elements =>
      have hjson : (Sample.array xs).IsJson := .array elements
      obtain ⟨ms, ns, hinferred⟩ := exists_inferred hjson
      obtain ⟨items, hitems, heq⟩ := hinferred.exists_items
      have hsets : EachSet (DistinctSet (Sample.array xs)) (.object ns) :=
        (hinferred.finishes hjson).eachSet (by simpa using hjson) (by simpa using OccursIn.self) (by simp)
      exact ⟨_, heq title, eachSet_entitle title ((eachSet_object_iff.mp hsets).1 _ _ hitems)⟩
  | @object fields text unique values =>
      have hjson : (Sample.object fields).IsJson := .object text unique values
      obtain ⟨ms, ns, hinferred⟩ := exists_inferred hjson
      obtain ⟨ps, hps, heq⟩ := hinferred.exists_properties
      have hsets : EachSet (DistinctSet (Sample.object fields)) (.object ns) :=
        (hinferred.finishes hjson).eachSet (by simpa using hjson) (by simpa using OccursIn.self) (by simp)
      exact ⟨_, heq title, eachSet_heading_append .object title (by decide)
        ((eachSet_object_iff.mp hsets).1 _ _ hps)⟩

/-- Elements of two types, with the arrays among them met twice: each type is a variant once. -/
theorem inferSchema_distinct_mixed :
    EachSet (fun ys => ys.Pairwise fun a b => a.alike b = false)
      (.object [(.str "type", .str "array"), (.str "items", .object [(.str "oneOf", .array
        [.object [(.str "type", .str "array"), (.str "items", .object [(.str "type", .str "string")])],
          .object [(.str "type", .str "number")]])])]) := by
  have hjson : (Sample.array [.array [.scalar (.str "a")], .scalar (.int 1),
      .array [.scalar (.str "b")]]).IsJson := by
    simp
  have hfull : (Sample.array [.array [.scalar (.str "a")], .scalar (.int 1),
      .array [.scalar (.str "b")]]).NonemptyArrays := by
    refine .array (by simp) fun x hx => ?_
    simp only [List.mem_cons, List.not_mem_nil, or_false] at hx
    rcases hx with rfl | rfl | rfl
    · exact .array (by simp) (by simpa using .scalar _)
    · exact .scalar _
    · exact .array (by simp) (by simpa using .scalar _)
  obtain ⟨schema, heq, h⟩ := inferSchema_distinct hjson none
  cases heq
  exact fun path ys hget => (h path ys hget).distinct hfull

/-- An empty array and an array of texts are different drafts, but their finished forms are the same: the set
repeats itself. -/
theorem inferSchema_repeats_variant :
    let sample : Sample := .array [.array [], .array [.scalar (.str "a")], .scalar (.int 1)]
    ∃ schema, sample.IsJson ∧ inferSchema sample none = .ok schema ∧
      ¬ EachSet (fun ys => ys.Pairwise fun a b => a.alike b = false) schema := by
  intro sample
  refine ⟨_, by simp [sample], rfl, fun h => ?_⟩
  have hpairwise := h [.str "items"] _ rfl
  exact absurd hpairwise (by decide)

end SchemaForge.Inference
