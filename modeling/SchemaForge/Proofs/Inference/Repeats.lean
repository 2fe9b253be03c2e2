import SchemaForge.Proofs.Inference.Batches
import SchemaForge.Proofs.Inference.Held

/-!
Elements that are met again. What an array makes of them is what its schema makes of one more array, so
repeated data can only add variants to sets, and adds none if the draft holds the element. It may add one: the
first variant of a set may be what several elements before had in common, and then one of these elements, met
once more, is a variant that is new.
-/

namespace SchemaForge.Inference

open Sample (types valuesAt elementsOf)

/-! ### One more element -/

/-- An element that is met again widens the items that it was met for, whichever the other elements are. -/
theorem exists_widenItems_repeated {xs : List Sample} (hxs : ∀ x ∈ xs, x.IsJson) {x : Sample} (hx : x ∈ xs)
    {it : Value} (hit : widenItems (.object []) xs = .ok it) (hdescribes : Describes .items xs it) :
    ∃ it', widenItems (.object []) (xs ++ [x]) = .ok it' ∧ Changes it it' (Holds it x) := by
  have hjson : ∀ y ∈ [x], y.IsJson := List.forall_mem_singleton.mpr (hxs x hx)
  have hkinds : (∃ t, ∀ y ∈ xs ++ [x], y.type = t) ∨ 2 ≤ (types xs).length ∨
      ∃ t ∈ Sample.plainTypes, ∀ y ∈ xs, y.type = t := by
    by_cases many : 2 ≤ (types xs).length
    · exact .inr (.inl many)
    · have hne : types xs ≠ [] := fun hnil => by simp [Sample.types_eq_nil_iff.mp hnil] at hx
      have hlength := List.length_pos_iff.mpr hne
      obtain ⟨t, ht⟩ := List.length_eq_one_iff.mp (by omega : (types xs).length = 1)
      have hall : ∀ y ∈ xs, y.type = t := fun y hy => Sample.type_of_types_eq ht hy
      exact .inl ⟨t, List.forall_mem_append.mpr ⟨hall, List.forall_mem_singleton.mpr (hall x hx)⟩⟩
  obtain ⟨it', hit', -⟩ := widenItems_describes hxs hjson
    (fun y hy => widens_of_isJson (hjson y hy)) hdescribes
  have hwhole := widenItems_append hxs hjson hkinds
  rw [hit, ok_bind, hit'] at hwhole
  have haccepts := hdescribes.accepts hxs trivial x hx
  refine ⟨it', hwhole.symm, ?_⟩
  refine (changes_widenItems hxs hjson (fun y hy => growsUnlessHeld_of_isJson (hjson y hy)) hdescribes
    (List.forall_mem_singleton.mpr haccepts) hit').congr ?_
  exact List.forall_mem_singleton

/-! ### Schemas of arrays -/

/-- The schema of an array, in terms of the draft of its items. -/
theorem exists_inferSchema_array {xs : List Sample} (hxs : ∀ x ∈ xs, x.IsJson) :
    ∃ it is, widenItems (.object []) xs = .ok it ∧ Describes .items xs it ∧ FinishedItems it (.object is) ∧
      ∀ title, inferSchema (.array xs) title = .ok (.object (entitle title is (heading .array title))) := by
  obtain ⟨ms, ns, hinferred⟩ := exists_inferred (.array hxs)
  obtain ⟨it, hit, hdescribes⟩ := widenItems_describes (by simp) hxs
    (fun x hx => widens_of_isJson (hxs x hx)) describes_items_empty
  obtain ⟨is, his, heq⟩ := hinferred.exists_items
  have hms := hinferred.widens
  rw [← inferArray, inferArray_none, hit] at hms
  cases hms
  obtain ⟨w, hw, hfinished⟩ := hinferred.finished.find?_items (v := it)
    (by simp [Members.find?, Scalar.same_str_iff])
  rw [his] at hw
  cases hw
  exact ⟨it, is, hit, hdescribes, hfinished, heq⟩

theorem grows_entitle {is is' : Members} (h : List.Forall₂ GrowsMember is is') (title : Option String) :
    Grows (.object (entitle title is (heading .array title)))
      (.object (entitle title is' (heading .array title))) := by
  have hitems : ∀ {ms ns : Members}, List.Forall₂ GrowsMember ms ns →
      List.Forall₂ GrowsMember (heading .array title ++ [(.str "items", .object ms)])
        (heading .array title ++ [(.str "items", .object ns)]) := fun h =>
    grows_append (grows_self _) (.cons ⟨rfl, .inl (grows_object_iff.mpr ⟨_, rfl, h⟩)⟩ .nil)
  refine grows_object_iff.mpr ⟨_, rfl, ?_⟩
  unfold entitle
  split
  · exact hitems h
  · split
    · exact hitems h
    · exact grows_insert_both (hitems (grows_insert_both h _ _)) _ _

/-- Items without a title of their own can be told from the schema that has them. -/
theorem entitle_inj {title : Option String} {is is' : Members}
    (h : Members.find? (.str "title") is = none) (h' : Members.find? (.str "title") is' = none)
    (heq : entitle title is (heading .array title) = entitle title is' (heading .array title)) :
    is = is' := by
  have hfind : ∀ os : Members,
      Members.find? (.str "items") (heading .array title ++ [(.str "items", .object os)]) =
        some (.object os) := by
    intro os
    rw [find?_heading_append .array title "items" _ "items" (by decide)]
    rfl
  unfold entitle at heq
  split at heq
  · simpa using heq
  · split at heq
    · simpa using heq
    · have hitems := congrArg (Members.find? (.str "items")) heq
      simp only [Members.find?_insert_str, hfind] at hitems
      rw [if_neg (by decide), if_neg (by decide), Members.insert_of_not_has (by simp [Members.has, h]),
        Members.insert_of_not_has (by simp [Members.has, h'])] at hitems
      simpa using hitems

theorem finishedItems_unique {v w w' : Value} (h : FinishedItems v w) (h' : FinishedItems v w') :
    w = w' := by
  rw [FinishedItems] at h h'
  split at h
  · rw [if_pos ‹_›, h] at h'
    exact Except.ok.inj h'
  · rw [if_neg ‹_›] at h'
    exact h.trans h'.symm

theorem find?_title_of_finishedItems {ws : List Sample} {it : Value} {is : Members}
    (hdescribes : Describes .items ws it) (h : FinishedItems it (.object is)) :
    Members.find? (.str "title") is = none := by
  obtain ⟨ms, rfl⟩ := exists_of_describes hdescribes
  rw [FinishedItems] at h
  split at h
  · rw [find?_copied h (by decide)]
    cases hdescribes with
    | uniform _ describes =>
        obtain ⟨_, _, outline⟩ := describes.exists_outline
        exact outline.find?_eq_none (by decide)
    | mixed _ _ _ _ _ => simp
  · cases h
    rfl

theorem holds_array_iff {it : Value} {x : Sample} :
    Holds (.object [(.str "type", .str "array"), (.str "items", it)]) (.array [x]) ↔ Holds it x := by
  have hitems : Members.find? (.str "items") [(.str "type", .str "array"), (.str "items", it)] = some it := by
    simp [Members.find?, Scalar.same_str_iff]
  have hset : Members.find? (.str "oneOf") [(.str "type", .str "array"), (.str "items", it)] = none := by
    simp [Members.find?, Scalar.same_str_iff]
  constructor
  · intro h
    cases h with
    | variant set _ _ _ => simp [hset] at set
    | plain _ _ isPlain => simp [Sample.isContainer] at isPlain
    | array _ _ isItems elements =>
        rw [hitems] at isItems
        cases isItems
        exact elements x (List.mem_singleton_self x)
  · intro h
    refine .array hset ⟨.str "array", rfl, .inl rfl⟩ hitems ?_
    exact List.forall_mem_singleton.mpr h

/-- The schemas of an array and of the array with one of its elements once more. -/
theorem exists_schemas_repeated {xs : List Sample} (hxs : ∀ x ∈ xs, x.IsJson) {x : Sample} (hx : x ∈ xs)
    (title : Option String) :
    ∃ it schema schema', widenItems (.object []) xs = .ok it ∧ Describes .items xs it ∧
      inferSchema (.array xs) title = .ok schema ∧
      inferSchema (.array (xs ++ [x])) title = .ok schema' ∧
      Changes schema schema' (Holds it x) := by
  have hboth : ∀ y ∈ xs ++ [x], y.IsJson :=
    List.forall_mem_append.mpr ⟨hxs, List.forall_mem_singleton.mpr (hxs x hx)⟩
  obtain ⟨it, is, hit, hdescribes, hfinished, hschema⟩ := exists_inferSchema_array hxs
  obtain ⟨it', is', hit', hdescribes', hfinished', hschema'⟩ := exists_inferSchema_array hboth
  obtain ⟨_, heq, hchanges⟩ := exists_widenItems_repeated hxs hx hit hdescribes
  rw [hit'] at heq
  cases heq
  obtain ⟨hgrows, hsame⟩ := grows_finishedItem (k := .str "items") (.inl hchanges.grows)
    hdescribes.showsGrowth (exists_of_describes hdescribes) hfinished hfinished'
  obtain ⟨_, heq, hmembers⟩ := grows_object_iff.mp hgrows
  cases heq
  refine ⟨it, _, _, hit, hdescribes, hschema title, hschema' title, grows_entitle hmembers title, ?_⟩
  rw [← hchanges.same_iff]
  constructor
  · intro heq
    have htitle := find?_title_of_finishedItems hdescribes hfinished
    have htitle' := find?_title_of_finishedItems hdescribes' hfinished'
    exact hsame (congrArg Value.object (entitle_inj htitle' htitle (Value.object.inj heq)))
  · intro heq
    subst heq
    rw [Value.object.inj (finishedItems_unique hfinished' hfinished)]

/-- An element that is met again: the schema is the same except for further variants of sets, and it is the
same altogether exactly if its draft holds the element. -/
theorem inferSchema_repeated {xs : List Sample} (hxs : ∀ x ∈ xs, x.IsJson) {x : Sample} (hx : x ∈ xs)
    (title : Option String) :
    ∃ draft schema schema', inferArray none (.array xs) = .ok draft ∧
      inferSchema (.array xs) title = .ok schema ∧
      inferSchema (.array (xs ++ [x])) title = .ok schema' ∧ Grows schema schema' ∧
      (schema' = schema ↔ Holds draft (.array [x])) := by
  obtain ⟨it, schema, schema', hit, -, hschema, hschema', hchanges⟩ := exists_schemas_repeated hxs hx title
  refine ⟨_, schema, schema', by rw [inferArray_none, hit]; rfl, hschema, hschema', hchanges.grows, ?_⟩
  rw [holds_array_iff, hchanges.same_iff]

/-- An array of objects and an array of numbers: the numbers may be met again. -/
theorem inferSchema_repeated_numbers :
    ∃ draft, inferArray none (.array [.array [.object [(.str "a", .scalar (.int 1))]],
        .array [.scalar (.int 1)]]) = .ok draft ∧
      Holds draft (.array [.array [.scalar (.int 1)]]) := by
  have hjson : ∀ x ∈ [Sample.array [.object [(.str "a", .scalar (.int 1))]], .array [.scalar (.int 1)]],
      x.IsJson := by
    simp
  obtain ⟨draft, schema, schema', hdraft, hschema, hschema', -, hsame⟩ :=
    inferSchema_repeated hjson (x := .array [.scalar (.int 1)]) (by simp) none
  cases hschema
  cases hschema'
  exact ⟨draft, hdraft, hsame.mp rfl⟩

/-- The objects may not. As the first variant they are required to have the key that they have in common, and
an object on its own is not required to have any, so that it becomes a further variant. -/
theorem inferSchema_repeated_adds_variant :
    let rows : Sample := .array [.object [(.str "a", .scalar (.int 1))]]
    let numbers : Sample := .array [.scalar (.int 1)]
    ∃ schema schema', (∀ x ∈ [rows, numbers], x.IsJson) ∧
      inferSchema (.array [rows, numbers]) none = .ok schema ∧
      inferSchema (.array ([rows, numbers] ++ [rows])) none = .ok schema' ∧ schema' ≠ schema := by
  intro rows numbers
  exact ⟨_, _, by simp [rows, numbers], rfl, rfl, by decide⟩

/-! ### Scalars in arrays -/

theorem Outline.eq_of_scalars {ws : List Sample} {ms ps : Members} {it : Value} {t : String}
    (outline : Outline [] ws ms ps it) (hts : types ws = [t]) (hobject : t ≠ "object")
    (harray : t ≠ "array") :
    ms = [(.str "type", .str t)] := by
  have htype := outline.type
  rw [hts, typeEntry] at htype
  have hkey : ∀ m ∈ ms, m.1 = .str "type" := by
    intro m hm
    rcases outline.cases_of_mem hm with ⟨hkey, -⟩ | ⟨-, hrequired⟩ | ⟨-, hmem, -⟩ | ⟨-, hmem, -⟩
    · exact hkey
    · simp [requiredEntry] at hrequired
    · rw [hts, List.mem_singleton] at hmem
      exact absurd hmem.symm hobject
    · rw [hts, List.mem_singleton] at hmem
      exact absurd hmem.symm harray
  have hunique := outline.unique
  rcases ms with _ | ⟨m, _ | ⟨n, ms⟩⟩
  · simp at htype
  · obtain ⟨k, v⟩ := m
    obtain rfl : k = .str "type" := hkey _ List.mem_cons_self
    simpa using htype
  · have hsame : m.1 = n.1 := (hkey m (by simp)).trans (hkey n (by simp)).symm
    simp [Members.keys, hsame] at hunique

/-- A variant that accepts a scalar is the draft of the scalar on its own. -/
theorem draft_of_accepts {ws : List Sample} {g : Variant} {x : Sample} (fits : g.FitsIn ws)
    (describes : Describes (.node g.required) g.samples g.node) (hx : x.IsJson)
    (hplain : x.isContainer = false) (haccepts : Accepts g.node x) :
    widen none x = .ok g.node ∧ g.node.IsJson := by
  have hobject : x.type ≠ "object" := Sample.type_ne_of_plain hplain (by decide)
  have harray : x.type ≠ "array" := Sample.type_ne_of_plain hplain (by decide)
  have hts := types_of_accepts fits describes haccepts
  have hrequired : g.required = [] := by
    rcases fits.isRequired with hnil | hcommon
    · exact hnil
    · rw [hcommon]
      exact Sample.commonKeys_eq_nil_of_type (fun v hv => Sample.type_of_types_eq hts hv) hobject
  obtain ⟨ms, hms⟩ := exists_of_describes describes
  rw [hms, hrequired] at describes
  obtain ⟨_, _, outline⟩ := describes.exists_outline
  have hsingle : ∀ y ∈ [x], y.IsJson := List.forall_mem_singleton.mpr hx
  have hown := variants_eq_ok_iff.mp (variants_of_scalars hsingle
    (Sample.type_mem_plainTypes hplain) (List.forall_mem_singleton.mpr rfl))
  rw [List.map_singleton, List.forall₂_cons] at hown
  rw [hms, outline.eq_of_scalars hts hobject harray]
  exact ⟨hown.1, by simp [Members.keys]⟩

/-- A scalar that is accepted by items is held by them. -/
theorem holds_items_of_plain {ws : List Sample} {it : Value} {x : Sample}
    (hdescribes : Describes .items ws it) (hx : x.IsJson) (hplain : x.isContainer = false) (haccepts : Accepts it x) : Holds it x := by
  cases hdescribes with
  | uniform few describes =>
      obtain ⟨ms, rfl⟩ := exists_of_describes describes
      obtain ⟨_, _, outline⟩ := describes.exists_outline
      exact .plain outline.find?_oneOf (declares_of_accepts outline.find?_oneOf haccepts) hplain
  | mixed _ fits describes _ _ =>
      obtain ⟨c, hc, haccepts⟩ := accepts_set_iff.mp haccepts
      obtain ⟨g, hg, rfl⟩ := List.mem_map.mp hc
      obtain ⟨hown, hjson⟩ := draft_of_accepts (fits g hg) (describes g hg) hx hplain haccepts
      exact (holds_set_iff hown).mpr ⟨g.node, hc, hjson.alike_self⟩

/-- A sample whose arrays hold neither arrays nor objects. -/
inductive FlatArrays : Sample → Prop where
  | plain {v : Sample} (isPlain : v.isContainer = false) : FlatArrays v
  | array {xs : List Sample} (elements : ∀ x ∈ xs, x.isContainer = false) : FlatArrays (.array xs)
  | object {ms : List (Scalar × Sample)} (values : ∀ m ∈ ms, FlatArrays m.2) : FlatArrays (.object ms)

theorem holds_of_flatArrays {v : Sample} (hv : v.IsJson) (hflat : FlatArrays v) :
    ∀ {required : List Scalar} {vs : List Sample} {node : Value}, (∀ u ∈ vs, u.IsJson) →
      Describes (.node required) vs node → Accepts node v → Holds node v := by
  induction hflat with
  | plain isPlain =>
      intro required vs node _ hdescribes haccepts
      obtain ⟨ms, rfl⟩ := exists_of_describes hdescribes
      obtain ⟨_, _, outline⟩ := hdescribes.exists_outline
      exact .plain outline.find?_oneOf (declares_of_accepts outline.find?_oneOf haccepts) isPlain
  | array isPlain =>
      intro required vs node _ hdescribes haccepts
      cases hdescribes with
      | @node _ _ ms ps it outline _ describes =>
          obtain ⟨harray, elements⟩ := outline.accepts_array_iff.mp haccepts
          exact outline.holds_array_iff.mpr ⟨harray, fun x hx => holds_items_of_plain (describes harray)
            (Sample.isJson_array_iff.mp hv x hx) (isPlain x hx) (elements x hx)⟩
  | @object fields _ ih =>
      intro required vs node hvs hdescribes haccepts
      obtain ⟨text, -, json⟩ := Sample.isJson_object_iff.mp hv
      cases hdescribes with
      | @node _ _ ms ps it outline describes _ =>
          obtain ⟨hobject, values, hrequired⟩ := outline.accepts_object_iff.mp haccepts
          refine outline.holds_object_iff.mpr ⟨hobject, fun m hm => ?_, hrequired⟩
          obtain ⟨p, hp, hpm⟩ := values m hm
          exact ⟨p, hp, ih m hm (json m hm) (fun w hw => Sample.isJson_of_mem_valuesAt hvs hw)
            (describes _ (Members.mem_of_find? (text m hm) hp)) hpm⟩

theorem exists_alike_of_addVariants {cs : List Value} (hcs : ∀ c ∈ cs, c.IsJson) (nodes : List Value) :
    ∀ c ∈ cs, ∃ n ∈ addVariants nodes cs, c.alike n = true := by
  induction cs generalizing nodes with
  | nil => simp
  | cons c cs ih =>
      obtain ⟨hc, hcs⟩ := List.forall_mem_cons.mp hcs
      rw [addVariants]
      refine List.forall_mem_cons.mpr ⟨?_, ih hcs _⟩
      split
      · next hany =>
          obtain ⟨n, hn, halike⟩ := List.any_eq_true.mp hany
          exact ⟨n, (prefix_addVariants nodes cs).subset hn, halike⟩
      · exact ⟨c, (prefix_addVariants _ cs).subset (by simp), hc.alike_self⟩

/-- Elements of several types that are met in one array are variants each on its own. -/
theorem holds_items_of_mem {xs : List Sample} (hxs : ∀ x ∈ xs, x.IsJson) (many : 2 ≤ (types xs).length)
    {it : Value} (hit : widenItems (.object []) xs = .ok it) : ∀ x ∈ xs, Holds it x := by
  rw [widenItems_empty_of_mixed many] at hit
  obtain ⟨cs, hcs, hit⟩ := bind_eq_ok_iff.mp hit
  cases hit
  obtain ⟨_, heq, hdescribes⟩ := variants_describe hxs fun x hx => widens_of_isJson (hxs x hx)
  rw [hcs] at heq
  cases heq
  have hjson : ∀ c ∈ cs, c.IsJson := by
    intro c hc
    obtain ⟨x, hx, hxc⟩ := exists_left_of_mem hdescribes hc
    exact hxc.isJson (List.forall_mem_singleton.mpr (hxs x hx))
  exact (forall_holds_set_iff hcs).mpr (exists_alike_of_addVariants hjson [])

/-- Repeated data adds nothing to the schema of elements of several types, nor if the arrays in the element
that is met again hold scalars alone. -/
theorem inferSchema_repeated_eq {xs : List Sample} (hxs : ∀ x ∈ xs, x.IsJson) {x : Sample} (hx : x ∈ xs)
    (h : 2 ≤ (types xs).length ∨ FlatArrays x) (title : Option String) :
    ∃ schema, inferSchema (.array xs) title = .ok schema ∧
      inferSchema (.array (xs ++ [x])) title = .ok schema := by
  obtain ⟨it, schema, schema', hit, hdescribes, hschema, hschema', hchanges⟩ :=
    exists_schemas_repeated hxs hx title
  have hheld : Holds it x := by
    by_cases many : 2 ≤ (types xs).length
    · exact holds_items_of_mem hxs many hit x hx
    · have haccepts := hdescribes.accepts hxs trivial x hx
      cases hdescribes with
      | mixed hmany _ _ _ _ => exact absurd hmany many
      | uniform _ describes =>
          exact holds_of_flatArrays (hxs x hx) (h.resolve_left many) hxs describes haccepts
  refine ⟨schema, hschema, ?_⟩
  rw [hschema', hchanges.same_iff.mpr hheld]

end SchemaForge.Inference
