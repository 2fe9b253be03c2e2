import SchemaForge.Proofs.Inference.Turns

/-!
Merging only widens. A node that was widened by one more sample accepts whatever it accepted before, not only
the samples it has met: types and properties only grow, required names only shrink, and what becomes a variant
of a set stays in the set. So whatever arrays and objects a schema is merged from, one more of them leads to a
schema that covers the one before.
-/

namespace SchemaForge.Inference

open Sample (types valuesAt elementsOf commonKeys)

/-- A node that accepts whatever another one accepts. -/
def Covers (node' node : Value) : Prop := ∀ u, Accepts node u → Accepts node' u

theorem Covers.refl (node : Value) : Covers node node := fun _ h => h

theorem Covers.trans {a b c : Value} (hab : Covers a b) (hbc : Covers b c) : Covers a c :=
  fun u h => hab u (hbc u h)

/-- Nothing is accepted by the empty node, so any node covers it. -/
theorem covers_empty (node : Value) : Covers node (.object []) :=
  fun u h => absurd h (not_accepts_empty u)

/-! ### Sets -/

theorem accepts_set_iff {xs : List Value} {v : Sample} :
    Accepts (.object [(.str "oneOf", .array xs)]) v ↔ ∃ x ∈ xs, Accepts x v := by
  constructor
  · intro h
    cases h with
    | variant set mem accepts =>
        simp only [Members.find?_singleton_str, if_true, Option.some.injEq, Value.array.injEq] at set
        exact ⟨_, set ▸ mem, accepts⟩
    | plain noSet _ _ => simp at noSet
    | object noSet _ _ _ _ _ => simp at noSet
    | array noSet _ _ _ => simp at noSet
  · rintro ⟨x, hx, haccepts⟩
    exact .variant (by simp) hx haccepts

theorem covers_of_mem {node : Value} {xs : List Value} (h : node ∈ xs) :
    Covers (.object [(.str "oneOf", .array xs)]) node :=
  fun _ haccepts => accepts_set_iff.mpr ⟨node, h, haccepts⟩

theorem covers_of_subset {xs ys : List Value} (h : xs ⊆ ys) :
    Covers (.object [(.str "oneOf", .array ys)]) (.object [(.str "oneOf", .array xs)]) := by
  intro u haccepts
  obtain ⟨x, hx, haccepts⟩ := accepts_set_iff.mp haccepts
  exact accepts_set_iff.mpr ⟨x, h hx, haccepts⟩

/-- The variants that are there stay in front. -/
theorem prefix_addVariants (nodes cs : List Value) : nodes <+: addVariants nodes cs := by
  induction cs generalizing nodes with
  | nil => exact List.prefix_refl nodes
  | cons c cs ih =>
      rw [addVariants]
      split
      · exact ih nodes
      · exact (List.prefix_append nodes [c]).trans (ih _)

/-! ### Nodes with an outline -/

/-- The parts of a node cover those of another one: the properties at each key, and the items. -/
structure CoversParts (ns ms : Members) : Prop where
  properties : ∀ ps, Members.find? (.str "properties") ms = some (.object ps) →
    ∃ qs, Members.find? (.str "properties") ns = some (.object qs) ∧
      ∀ k p, Members.find? k ps = some p → ∃ q, Members.find? k qs = some q ∧ Covers q p
  items : ∀ it, Members.find? (.str "items") ms = some it →
    ∃ it', Members.find? (.str "items") ns = some it' ∧ Covers it' it

theorem coversParts_of_find?_eq {ns ms : Members}
    (hproperties : Members.find? (.str "properties") ns = Members.find? (.str "properties") ms)
    (hitems : Members.find? (.str "items") ns = Members.find? (.str "items") ms) : CoversParts ns ms where
  properties := fun ps hps => ⟨ps, hproperties.trans hps, fun _ p hp => ⟨p, hp, .refl p⟩⟩
  items := fun it hit => ⟨it, hitems.trans hit, .refl it⟩

section Outlines

variable {required : List Scalar} {vs : List Sample} {ms ps : Members} {it : Value}
  (h : Outline required vs ms ps it)

include h

theorem Outline.declares_iff {t : String} : Declares ms t ↔ t ∈ types vs := by
  rw [Declares, h.type]
  rcases types vs with _ | ⟨u, _ | ⟨v, ts⟩⟩
  · simp [typeEntry]
  · simp [typeEntry, eq_comm]
  · simp [typeEntry]

theorem Outline.requiresAmong_iff {keys : List Scalar} :
    RequiresAmong ms keys ↔ ∀ k ∈ required, k ∈ keys := by
  refine ⟨fun hrequires k hk => ?_, requiresAmong_of_outline h⟩
  have hentry := h.isRequired
  cases required with
  | nil => simp at hk
  | cons l ls =>
      obtain ⟨names, heq, hnames⟩ := hrequires _ hentry
      cases heq
      obtain ⟨k', hk', hscalar⟩ := hnames _ (List.mem_map_of_mem hk)
      cases hscalar
      exact hk'

theorem Outline.accepts_object_iff {fields : List (Scalar × Sample)} :
    Accepts (.object ms) (.object fields) ↔ "object" ∈ types vs ∧
      (∀ m ∈ fields, ∃ p, Members.find? m.1 ps = some p ∧ Accepts p m.2) ∧
      ∀ k ∈ required, k ∈ fields.map (·.1) := by
  constructor
  · intro haccepts
    cases haccepts with
    | variant set _ _ => simp [h.find?_oneOf] at set
    | plain _ _ isPlain => simp [Sample.isContainer] at isPlain
    | object _ declares properties known values requires =>
        have hobject := h.declares_iff.mp declares
        rw [h.find?_properties hobject] at properties
        cases properties
        refine ⟨hobject, fun m hm => ?_, h.requiresAmong_iff.mp requires⟩
        obtain ⟨p, hp⟩ := known m hm
        exact ⟨p, hp, values m hm p hp⟩
  · rintro ⟨hobject, values, hrequired⟩
    refine .object h.find?_oneOf (h.declares_iff.mpr hobject) (h.find?_properties hobject)
      (fun m hm => ?_) (fun m hm p hp => ?_) (h.requiresAmong_iff.mpr hrequired)
    · obtain ⟨p, hp, -⟩ := values m hm
      exact ⟨p, hp⟩
    · obtain ⟨q, hq, haccepts⟩ := values m hm
      rw [hp] at hq
      cases hq
      exact haccepts

theorem Outline.accepts_array_iff {xs : List Sample} :
    Accepts (.object ms) (.array xs) ↔ "array" ∈ types vs ∧ ∀ x ∈ xs, Accepts it x := by
  constructor
  · intro haccepts
    cases haccepts with
    | variant set _ _ => simp [h.find?_oneOf] at set
    | plain _ _ isPlain => simp [Sample.isContainer] at isPlain
    | array _ declares isItems elements =>
        have harray := h.declares_iff.mp declares
        rw [h.find?_items harray] at isItems
        cases isItems
        exact ⟨harray, elements⟩
  · rintro ⟨harray, elements⟩
    exact .array h.find?_oneOf (h.declares_iff.mpr harray) (h.find?_items harray) elements

/-- Of two nodes the one covers the other if it knows all its types, requires no more and has parts that
cover the parts. -/
theorem Outline.covers {required' : List Scalar} {vs' : List Sample} {ns qs : Members} {it' : Value}
    (h' : Outline required' vs' ns qs it') (htypes : types vs ⊆ types vs')
    (hrequired : required' ⊆ required) (parts : CoversParts ns ms) :
    Covers (.object ns) (.object ms) := by
  have hdeclares : ∀ {t}, Declares ms t → Declares ns t := fun hd =>
    h'.declares_iff.mpr (htypes (h.declares_iff.mp hd))
  intro u haccepts
  cases haccepts with
  | variant set _ _ => simp [h.find?_oneOf] at set
  | plain _ declares isPlain => exact .plain h'.find?_oneOf (hdeclares declares) isPlain
  | object _ declares properties known values requires =>
      obtain ⟨qs, hqs, hcovers⟩ := parts.properties _ properties
      refine .object h'.find?_oneOf (hdeclares declares) hqs (fun m hm => ?_) (fun m hm q hq => ?_) ?_
      · obtain ⟨p, hp⟩ := known m hm
        obtain ⟨q, hq, -⟩ := hcovers _ p hp
        exact ⟨q, hq⟩
      · obtain ⟨p, hp⟩ := known m hm
        obtain ⟨q', hq', hqp⟩ := hcovers _ p hp
        rw [hq'] at hq
        cases hq
        exact hqp _ (values m hm p hp)
      · have hamong := h.requiresAmong_iff.mp requires
        exact h'.requiresAmong_iff.mpr fun k hk => hamong k (hrequired hk)
  | array _ declares isItems elements =>
      obtain ⟨it', hit', hcovers⟩ := parts.items _ isItems
      exact .array h'.find?_oneOf (hdeclares declares) hit' fun x hx => hcovers x (elements x hx)

end Outlines

/-! ### One sample -/

/-- What widening by a sample does to acceptance: nothing is lost. -/
def WidensAcceptance (v : Sample) : Prop :=
  ∀ {required : List Scalar} {vs : List Sample} {node node' : Value}, (∀ u ∈ vs, u.IsJson) →
    Describes (.node required) vs node → widenNode node v = .ok node' → Covers node' node

/-- After one more sample the types are more and the required names the same, so the parts decide. -/
theorem covers_of_parts {required : List Scalar} {vs : List Sample} {v : Sample} {ms ns ps : Members}
    {it : Value} (hv : v.IsJson) (hvs : ∀ u ∈ vs, u.IsJson)
    (describes : Describes (.node required) vs (.object ms)) (outline : Outline required vs ms ps it)
    (hnode : widenNode (.object ms) v = .ok (.object ns)) (parts : CoversParts ns ms) :
    Covers (.object ns) (.object ms) := by
  obtain ⟨node', heq, hdescribes⟩ := widens_of_isJson hv hvs describes
  rw [hnode] at heq
  cases heq
  obtain ⟨qs, it', outline'⟩ := hdescribes.exists_outline
  exact outline.covers outline' (Sample.types_subset_append vs [v]) (List.Subset.refl _) parts

theorem widensAcceptance_plain {v : Sample} (hv : v.IsJson) (hplain : v.isContainer = false) :
    WidensAcceptance v := by
  intro required vs node node' hvs describes hnode
  obtain ⟨ms, rfl⟩ := exists_of_describes describes
  obtain ⟨ps, it, outline⟩ := describes.exists_outline
  obtain ⟨t, -, heq⟩ := widenNode_plain outline hplain
  rw [hnode] at heq
  cases heq
  exact covers_of_parts hv hvs describes outline hnode
    (coversParts_of_find?_eq (by simp) (by simp))

theorem widensAcceptance_object {fields : List (Scalar × Sample)} (hjson : (Sample.object fields).IsJson)
    (ih : ∀ m ∈ fields, WidensAcceptance m.2) : WidensAcceptance (.object fields) := by
  intro required vs node node' hvs describes hnode
  cases describes with
  | @node _ _ ms ps it outline describes elements =>
      obtain ⟨t, -, heq⟩ := widenNode_object outline fields
      rw [hnode] at heq
      obtain ⟨qs, hqs, heq⟩ := bind_eq_ok_iff.mp heq.symm
      cases heq
      have hnull : ∀ m ∈ fields, Members.find? m.1 ps ≠ some .null := by
        intro m hm
        have hps : PropertiesDescribe vs ps := ⟨outline.keys, describes⟩
        exact hps.find?_ne_null ((Sample.isJson_object_iff.mp hjson).1 m hm)
      have hwidens := widensAt_of_widenProperties hjson hnull hqs
      refine covers_of_parts hjson hvs (.node outline describes elements) outline hnode ⟨?_, ?_⟩
      · intro ps' hps'
        obtain ⟨-, heq⟩ := Option.ite_none_right_eq_some.mp (outline.properties.symm.trans hps')
        cases heq
        refine ⟨qs, Members.find?_insert_self _ _ _, fun k p hp => ?_⟩
        by_cases hk : k ∈ fields.map (·.1)
        · -- The value at this key widened the node that was there.
          obtain ⟨m, hm, rfl⟩ := List.mem_map.mp hk
          obtain ⟨q, hq, hfind⟩ := hwidens.widened m hm
          rw [hp] at hq
          have htext := (Sample.isJson_object_iff.mp hjson).1 m hm
          exact ⟨q, hfind, ih m hm (fun w hw => Sample.isJson_of_mem_valuesAt hvs hw)
            (describes _ (Members.mem_of_find? htext hp)) hq⟩
        · exact ⟨p, (hwidens.kept k hk).trans hp, .refl p⟩
      · exact fun it' hit' => ⟨it', by simpa using hit', .refl it'⟩

/-! ### Elements -/

/-- Samples in turn widen a node to what they all describe. -/
theorem widenEach_describes {xs : List Sample} (hxs : ∀ x ∈ xs, x.IsJson) :
    ∀ {required : List Scalar} {vs : List Sample} {node : Value}, (∀ v ∈ vs, v.IsJson) →
      Describes (.node required) vs node →
        ∃ node', widenEach xs node = .ok node' ∧ Describes (.node required) (vs ++ xs) node' := by
  induction xs with
  | nil => exact fun _ h => ⟨_, rfl, by simpa using h⟩
  | cons x xs ih =>
      intro required vs node hvs h
      obtain ⟨hx, hxs⟩ := List.forall_mem_cons.mp hxs
      obtain ⟨middle, hmiddle, hdescribes⟩ := widens_of_isJson hx hvs h
      have hvs' : ∀ v ∈ vs ++ [x], v.IsJson := by
        simpa [or_imp, forall_and] using ⟨hvs, hx⟩
      obtain ⟨node', hnode', hrest⟩ := ih hxs hvs' hdescribes
      exact ⟨node', by rw [widenEach, hmiddle, ok_bind, hnode'], by simpa using hrest⟩

theorem covers_of_widenEach {xs : List Sample} (hxs : ∀ x ∈ xs, x.IsJson)
    (ih : ∀ x ∈ xs, WidensAcceptance x) :
    ∀ {required : List Scalar} {vs : List Sample} {node node' : Value}, (∀ v ∈ vs, v.IsJson) →
      Describes (.node required) vs node → widenEach xs node = .ok node' → Covers node' node := by
  induction xs with
  | nil =>
      intro required vs node node' _ _ hnode
      cases hnode
      exact .refl node
  | cons x xs ihxs =>
      intro required vs node node' hvs h hnode
      obtain ⟨hx, hxs⟩ := List.forall_mem_cons.mp hxs
      obtain ⟨ihx, ih⟩ := List.forall_mem_cons.mp ih
      obtain ⟨middle, hmiddle, hdescribes⟩ := widens_of_isJson hx hvs h
      rw [widenEach, hmiddle, ok_bind] at hnode
      have hvs' : ∀ v ∈ vs ++ [x], v.IsJson := by
        simpa [or_imp, forall_and] using ⟨hvs, hx⟩
      exact (ihxs hxs ih hvs' hdescribes hnode).trans (ihx hvs h hmiddle)

/-- Narrowing the names that a node requires. -/
theorem covers_of_withRequired {old ks : List Scalar} {ws : List Sample} {node node' : Value}
    (h : Describes (.node old) ws node) (hsub : ks ⊆ old)
    (hnode : withRequired (some (ks.map .scalar)) node = .ok node') : Covers node' node := by
  obtain ⟨_, heq, hdescribes⟩ := withRequired_describes h ks
  rw [hnode] at heq
  cases heq
  obtain ⟨ms, rfl⟩ := exists_of_describes h
  obtain ⟨ns, rfl⟩ := exists_of_describes hdescribes
  obtain ⟨ps, it, outline⟩ := h.exists_outline
  obtain ⟨qs, it', outline'⟩ := hdescribes.exists_outline
  have hkept : ∀ w : String, "required" ≠ w →
      Members.find? (.str w) ns = Members.find? (.str w) ms := by
    intro w hw
    cases ks with
    | nil =>
        cases hnode
        exact Members.find?_erase_of_ne ⟨_, rfl⟩ (by simpa using hw) ms
    | cons k ks =>
        cases hnode
        simp [hw]
  exact outline.covers outline' (List.Subset.refl _) hsub
    (coversParts_of_find?_eq (hkept _ (by decide)) (hkept _ (by decide)))

theorem covers_of_widenItems {ws xs : List Sample} {node node' : Value} (hws : ∀ w ∈ ws, w.IsJson)
    (hxs : ∀ x ∈ xs, x.IsJson) (ih : ∀ x ∈ xs, WidensAcceptance x) (h : Describes .items ws node)
    (hnode : widenItems node xs = .ok node') : Covers node' node := by
  by_cases hnil : ws = []
  · subst hnil
    rw [eq_empty_of_describes_items h]
    exact covers_empty node'
  cases h with
  | mixed _ _ _ _ _ =>
      rw [widenItems_set] at hnode
      obtain ⟨cs, -, hnode⟩ := bind_eq_ok_iff.mp hnode
      cases hnode
      exact covers_of_subset (prefix_addVariants _ cs).subset
  | uniform few describes =>
      obtain ⟨ms, rfl⟩ := exists_of_describes describes
      obtain ⟨ps, it, outline⟩ := describes.exists_outline
      cases widensUniform_of_widenItems hws hxs few outline hnode with
      | none _ same => exact same ▸ .refl _
      | @objects middle _ each narrowed =>
          obtain ⟨_, heq, hdescribes⟩ := widenEach_describes hxs hws describes
          rw [each] at heq
          cases heq
          rw [requiredNames_of_ne_nil (by simp [hnil])] at narrowed
          exact (covers_of_withRequired hdescribes (Sample.commonKeys_append_subset hnil xs) narrowed).trans
            (covers_of_widenEach hxs ih hws describes each)
      | arrays _ each => exact covers_of_widenEach hxs ih hws describes each
      | @scalars t areScalars _ _ named =>
          -- The type that is named is the one that is there.
          have hall : ∀ w ∈ ws, w.type = t := fun w hw =>
            Sample.type_of_types_eq areScalars (List.mem_append_left _ hw)
          have htype : Members.find? (.str "type") ms = some (.str t) := by
            rw [outline.type, Sample.types_eq_singleton hnil hall, typeEntry]
          rw [named, Members.insert_of_find? htype]
          exact .refl _
      | @mixed cs _ _ set =>
          rw [set, if_neg hnil]
          exact covers_of_mem ((prefix_addVariants _ cs).subset (List.mem_singleton_self _))

theorem widensAcceptance_array {xs : List Sample} (hxs : ∀ x ∈ xs, x.IsJson)
    (ih : ∀ x ∈ xs, WidensAcceptance x) : WidensAcceptance (.array xs) := by
  intro required vs node node' hvs describes hnode
  cases describes with
  | @node _ _ ms ps it outline describes elements =>
      obtain ⟨t, -, heq⟩ := widenNode_array outline xs
      rw [hnode] at heq
      obtain ⟨items, hitems, heq⟩ := bind_eq_ok_iff.mp heq.symm
      cases heq
      refine covers_of_parts (.array hxs) hvs (.node outline describes elements) outline hnode ⟨?_, ?_⟩
      · exact fun ps' hps' => ⟨ps', by simpa using hps', fun _ p hp => ⟨p, hp, .refl p⟩⟩
      · intro it' hit'
        obtain ⟨harray, heq⟩ := Option.ite_none_right_eq_some.mp (outline.items.symm.trans hit')
        cases heq
        rw [openItems_eq outline harray (elements harray)] at hitems
        exact ⟨items, Members.find?_insert_self _ _ _, covers_of_widenItems
          (fun w hw => Sample.isJson_of_mem_elementsOf hvs hw) hxs ih (elements harray) hitems⟩

theorem widensAcceptance_of_isJson {v : Sample} (hv : v.IsJson) : WidensAcceptance v := by
  induction hv with
  | scalar s => exact widensAcceptance_plain (.scalar s) rfl
  | array elements ih => exact widensAcceptance_array elements ih
  | object text unique values ih => exact widensAcceptance_object (.object text unique values) ih

/-! ### Arrays and objects in turn -/

/-- A schema into which an array or an object is merged, each with the function for it. -/
def inferContainer (schema : Option Value) : Sample → Except Fault Value
  | .array xs => inferArray schema (.array xs)
  | v => inferObject schema v

/-- A schema into which arrays and objects are merged in turn. -/
def inferEach (schema : Value) : List Sample → Except Fault Value
  | [] => .ok schema
  | v :: vs => do inferEach (← inferContainer (some schema) v) vs

theorem inferContainer_eq_widen {v : Sample} (hv : v.isContainer = true) (schema : Option Value) :
    inferContainer schema v = widen schema v := by
  cases v with
  | array xs => rfl
  | object ms => rfl
  | scalar s => simp [Sample.isContainer] at hv
  | foreign f => simp [Sample.isContainer] at hv

theorem inferContainer_eq_widenNode {v : Sample} (hv : v.isContainer = true) (node : Value) :
    inferContainer (some node) v = widenNode node v := by
  rw [inferContainer_eq_widen hv, widenNode, if_pos hv]

theorem inferEach_eq_widenEach {vs : List Sample} (hvs : ∀ v ∈ vs, v.isContainer = true) (node : Value) :
    inferEach node vs = widenEach vs node := by
  induction vs generalizing node with
  | nil => rfl
  | cons v vs ih =>
      obtain ⟨hv, hvs⟩ := List.forall_mem_cons.mp hvs
      rw [inferEach, widenEach, inferContainer_eq_widenNode hv]
      simp only [ih hvs]

/-- Merging only widens: whatever JSON arrays and objects a schema was merged from, merging one more of them
leads to a schema that accepts it and whatever the schema before accepts. -/
theorem inferContainer_covers {v w : Sample} {vs : List Sample}
    (h : ∀ u ∈ v :: w :: vs, u.IsJson ∧ u.isContainer = true) :
    ∃ schema schema', (do inferEach (← inferContainer none v) vs) = .ok schema ∧
      inferContainer (some schema) w = .ok schema' ∧ Accepts schema' w ∧ Covers schema' schema := by
  obtain ⟨⟨hv, hcontainer⟩, h⟩ := List.forall_mem_cons.mp h
  obtain ⟨⟨hw, hwcontainer⟩, hrest⟩ := List.forall_mem_cons.mp h
  have hvs : ∀ u ∈ v :: vs, u.IsJson := List.forall_mem_cons.mpr ⟨hv, fun u hu => (hrest u hu).1⟩
  -- A first schema is the empty node widened, so all of them are samples in turn.
  have hchain : (do inferEach (← inferContainer none v) vs) = widenEach (v :: vs) (.object []) := by
    rw [inferContainer_eq_widen hcontainer, widen_none hv, widenEach]
    simp only [inferEach_eq_widenEach fun u hu => (hrest u hu).2]
  obtain ⟨schema, hschema, hdescribes⟩ := widenEach_describes hvs (by simp) describes_empty
  obtain ⟨schema', hschema', hdescribes'⟩ := widens_of_isJson hw (by simpa using hvs) hdescribes
  refine ⟨schema, schema', hchain.trans hschema, ?_, ?_, ?_⟩
  · rw [inferContainer_eq_widenNode hwcontainer, hschema']
  · refine hdescribes'.accepts (fun u hu => ?_) (by simp [Place.Honest]) w (by simp)
    rcases List.mem_append.mp hu with hu | hu
    · exact hvs u hu
    · exact List.mem_singleton.mp hu ▸ hw
  · exact widensAcceptance_of_isJson hw (by simpa using hvs) hdescribes hschema'

/-- An array of numbers and an object, and then an array of texts: its items become a set. -/
theorem inferContainer_covers_mixed :
    let schema : Value := .object [(.str "type", .array [.str "array", .str "object"]),
      (.str "items", .object [(.str "type", .str "number")]),
      (.str "properties", .object [(.str "a", .object [(.str "type", .str "boolean")])])]
    let schema' : Value := .object [(.str "type", .array [.str "array", .str "object"]),
      (.str "items", .object [(.str "oneOf", .array [.object [(.str "type", .str "number")],
        .object [(.str "type", .str "string")]])]),
      (.str "properties", .object [(.str "a", .object [(.str "type", .str "boolean")])])]
    inferContainer (some schema) (.array [.scalar (.str "x")]) = .ok schema' ∧ Covers schema' schema := by
  have hcontainers : ∀ u ∈ [Sample.array [.scalar (.int 1)], .array [.scalar (.str "x")],
      .object [(.str "a", .scalar (.bool true))]], u.IsJson ∧ u.isContainer = true := by
    simp [Sample.isContainer]
  obtain ⟨schema, schema', hchain, hlast, -, hcovers⟩ := inferContainer_covers hcontainers
  cases hchain
  cases hlast
  exact ⟨rfl, hcovers⟩

end SchemaForge.Inference
