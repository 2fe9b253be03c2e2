import SchemaForge.Inference.Schema
import SchemaForge.Proofs.Inference.Elements

/-!
Soundness of inference: the schema of a JSON sample accepts the sample. The node that widening leads to
accepts it by what it describes, its finished form does because finishing keeps acceptance, and a title
adds no member that acceptance reads. The one exception is a null on its own, which has no schema that
could say so: its root counts as an object.
-/

namespace SchemaForge.Inference

/-! ### From nothing -/

/-- What a sample on its own leads to: the members of its node, and of the node's finished form. -/
structure Inferred (v : Sample) (ms ns : Members) : Prop where
  widens : widen none v = .ok (.object ms)
  form : nodeForm (.object ms) = .ok (.object ns)
  describes : Describes (.node []) [v] (.object ms)
  finished : FinishedMembers ms ns

theorem exists_inferred {v : Sample} (hv : v.IsJson) : ∃ ms ns, Inferred v ms ns := by
  obtain ⟨node, hnode, hdescribes⟩ := widens_of_isJson hv (by simp) describes_empty
  obtain ⟨ms, rfl⟩ := exists_of_describes hdescribes
  obtain ⟨node', hform⟩ := hdescribes.exists_nodeForm
  obtain ⟨ns, rfl, hfin⟩ := exists_of_nodeForm hform
  exact ⟨ms, ns, (widen_none hv).trans hnode, hform, hdescribes, hfin⟩

theorem Inferred.accepts {v : Sample} {ms ns : Members} (h : Inferred v ms ns) (hv : v.IsJson) :
    Accepts (.object ns) v := by
  have hold : Accepts (.object ms) v :=
    h.describes.accepts (by simpa using hv) (by simp [Place.Honest]) v (by simp)
  exact hold.finished h.form

theorem Inferred.find?_oneOf {v : Sample} {ms ns : Members} (h : Inferred v ms ns) :
    Members.find? (.str "oneOf") ns = none := by
  obtain ⟨_, _, outline⟩ := h.describes.exists_outline
  exact h.finished.noVariants outline.find?_oneOf

/-- Finished items are a node's, also where items are missing. -/
theorem exists_of_finishedItems {vs : List Sample} {node node' : Value}
    (hdescribes : Describes .items vs node) (h : FinishedItems node node') :
    ∃ ms, node' = .object ms := by
  rw [FinishedItems] at h
  split at h
  · obtain ⟨ms, rfl⟩ := exists_of_describes hdescribes
    obtain ⟨ns, rfl, -⟩ := exists_of_nodeForm h
    exact ⟨ns, rfl⟩
  · exact ⟨_, h⟩

theorem Inferred.exists_properties {fields : List (Scalar × Sample)} {ms ns : Members}
    (h : Inferred (.object fields) ms ns) :
    ∃ ps, Members.find? (.str "properties") ns = some (.object ps) ∧
      ∀ title, inferSchema (.object fields) title =
        .ok (.object (heading .object title ++ [(.str "properties", .object ps)])) := by
  obtain ⟨ps, it, outline⟩ := h.describes.exists_outline
  have hobject : "object" ∈ Sample.types [.object fields] :=
    Sample.mem_types.mpr ⟨_, List.mem_singleton_self _, rfl⟩
  obtain ⟨qs, hqs, -⟩ := h.finished.find?_properties (outline.find?_properties hobject)
  refine ⟨qs, hqs, fun title => ?_⟩
  simp only [inferSchema, inferObject, h.widens, ok_bind, h.form, Value.getOrNull, Value.lookup,
    Value.members_object, pure_eq_ok, hqs, Option.getD_some]
  rfl

theorem Inferred.exists_items {xs : List Sample} {ms ns : Members}
    (h : Inferred (.array xs) ms ns) :
    ∃ items, Members.find? (.str "items") ns = some (.object items) ∧
      ∀ title, inferSchema (.array xs) title =
        .ok (.object (entitle title items (heading .array title))) := by
  obtain ⟨items, hitems, is, rfl⟩ : ∃ items, Members.find? (.str "items") ns = some items ∧
      ∃ is, items = .object is := by
    have harray : "array" ∈ Sample.types [.array xs] :=
      Sample.mem_types.mpr ⟨_, List.mem_singleton_self _, rfl⟩
    cases h.describes with
    | node outline _ elements =>
        obtain ⟨items, hitems, hfinished⟩ := h.finished.find?_items (outline.find?_items harray)
        exact ⟨items, hitems, exists_of_finishedItems (elements harray) hfinished⟩
  refine ⟨is, hitems, fun title => ?_⟩
  simp only [inferSchema, inferArray, h.widens, ok_bind, h.form, Value.getOrNull, Value.lookup,
    Value.members_object, pure_eq_ok, hitems, Option.getD_some]
  rfl

/-! ### Titles -/

theorem exists_text_of_mem_heading {kind : Kind} {title : Option String} {m : Scalar × Value}
    (hm : m ∈ heading kind title) : ∃ s, m.2 = .str s := by
  rcases List.mem_cons.mp hm with rfl | hm
  · exact ⟨_, rfl⟩
  · cases title with
    | none => simp at hm
    | some t =>
        dsimp only at hm
        split at hm
        · simp at hm
        · exact ⟨t, congrArg Prod.snd (List.mem_singleton.mp hm)⟩

/-- Of the keywords that acceptance reads, a heading states the type alone. -/
theorem find?_heading (kind : Kind) (title : Option String) {w : String}
    (hw : w ∈ acceptanceWords) :
    Members.find? (.str w) (heading kind title) =
      if w = "type" then some (.str kind.rootKind.name) else none := by
  have hne : "title" ≠ w := by
    rintro rfl
    simp [acceptanceWords] at hw
  have htitle : ∀ t : Value, Members.find? (.str w) [(.str "title", t)] = none := by
    simp [hne]
  unfold heading
  by_cases htype : w = "type"
  · simp [Members.find?, htype]
  · have hsame : (Scalar.str "type").same (.str w) = false :=
      Scalar.same_eq_false_of_ne ⟨_, rfl⟩ (by simpa using fun h => htype h.symm)
    rw [if_neg htype, Members.find?, hsame]
    cases title with
    | none => rfl
    | some t => by_cases ht : t = "" <;> simp [ht, htitle]

theorem find?_heading_append (kind : Kind) (title : Option String) (word : String) (v : Value) :
    ∀ w ∈ acceptanceWords,
      Members.find? (.str w) (heading kind title ++ [(.str word, v)]) =
        if w = "type" then some (.str kind.rootKind.name) else if w = word then some v
        else none := by
  intro w hw
  rw [Members.find?_append, find?_heading _ _ hw]
  by_cases htype : w = "type"
  · simp [htype]
  · simp [htype, eq_comm]

/-- An array with a title has the same keywords as one without it, and its items have too. -/
theorem find?_entitle (title : Option String) (items : Members) :
    ∃ is, (∀ w ∈ acceptanceWords, Members.find? (.str w) is = Members.find? (.str w) items) ∧
      ∀ w ∈ acceptanceWords,
        Members.find? (.str w) (entitle title items (heading .array title)) =
          if w = "type" then some (.str "array") else if w = "items" then some (.object is)
          else none := by
  have hne : ∀ w ∈ acceptanceWords, "title" ≠ w := by decide
  have hplain : ∀ is : Members, ∀ w ∈ acceptanceWords,
      Members.find? (.str w) (heading .array title ++ [(.str "items", .object is)]) =
        if w = "type" then some (.str "array") else if w = "items" then some (.object is)
        else none :=
    fun is => find?_heading_append .array title "items" (.object is)
  cases title with
  | none => exact ⟨items, fun _ _ => rfl, hplain items⟩
  | some t =>
      by_cases ht : t = ""
      · refine ⟨items, fun _ _ => rfl, fun w hw => ?_⟩
        rw [entitle, if_pos ht]
        exact hplain items w hw
      · refine ⟨Members.insert (.str "title") (.str t) items, fun w hw => ?_, fun w hw => ?_⟩
        · simp [hne w hw]
        · rw [entitle, if_neg ht, Members.find?_insert_str, if_neg (hne w hw)]
          exact hplain _ w hw

/-! ### Soundness -/

/-- The root of a scalar declares the type of the scalar, unless that is null. -/
theorem rootKind_scalar {s : Scalar} (hnull : s ≠ .null) :
    (Sample.scalar s).kind.rootKind.name = (Sample.scalar s).type := by
  cases s <;> first | rfl | contradiction

theorem accepts_root_scalar {s : Scalar} (hnull : s ≠ .null) (title : Option String) :
    Accepts (.object (heading (Sample.scalar s).kind title)) (.scalar s) := by
  refine .plain ?_ ⟨_, find?_heading _ _ (by decide), .inl ?_⟩ rfl
  · rw [find?_heading _ _ (by decide)]
    rfl
  · exact congrArg Value.str (rootKind_scalar hnull)

/-- Inference is sound: the schema of a JSON sample accepts it, with whatever title. -/
theorem inferSchema_accepts {v : Sample} (hv : v.IsJson) (hnull : v ≠ .scalar .null)
    (title : Option String) :
    ∃ schema, inferSchema v title = .ok schema ∧ Accepts schema v := by
  -- The root is not the finished node itself: it has a heading, and nothing required.
  cases hv with
  | scalar s =>
      exact ⟨_, rfl, accepts_root_scalar (fun h => hnull (by rw [h])) title⟩
  | @array xs elements =>
      have hjson : (Sample.array xs).IsJson := .array elements
      obtain ⟨ms, ns, hinferred⟩ := exists_inferred hjson
      obtain ⟨items, hitems, heq⟩ := hinferred.exists_items
      obtain ⟨is, his, hroot⟩ := find?_entitle title items
      refine ⟨_, heq title, ?_⟩
      cases hinferred.accepts hjson with
      | variant set _ _ => simp [hinferred.find?_oneOf] at set
      | plain _ _ isPlain => simp [Sample.isContainer] at isPlain
      | array _ _ isItems haccepts =>
          rw [hitems] at isItems
          cases isItems
          refine .array (hroot _ (by decide)) ⟨_, hroot _ (by decide), .inl rfl⟩
            (hroot _ (by decide)) fun x hx => ?_
          exact (haccepts x hx).congr his
  | @object fields text unique values =>
      have hjson : (Sample.object fields).IsJson := .object text unique values
      obtain ⟨ms, ns, hinferred⟩ := exists_inferred hjson
      obtain ⟨ps, hps, heq⟩ := hinferred.exists_properties
      have hroot := find?_heading_append .object title "properties" (.object ps)
      refine ⟨_, heq title, ?_⟩
      cases hinferred.accepts hjson with
      | variant set _ _ => simp [hinferred.find?_oneOf] at set
      | plain _ _ isPlain => simp [Sample.isContainer] at isPlain
      | object _ _ properties known haccepts _ =>
          rw [hps] at properties
          cases properties
          refine .object (hroot _ (by decide)) ⟨_, hroot _ (by decide), .inl rfl⟩
            (hroot _ (by decide)) known haccepts fun required hrequired => ?_
          rw [hroot _ (by decide)] at hrequired
          simp at hrequired

/-- Two rows that share one key, met as a number and as an array. -/
theorem inferSchema_accepts_rows :
    Accepts
      (.object [(.str "type", .str "array"), (.str "title", .str "Row Set"),
        (.str "items", .object [(.str "type", .str "object"), (.str "required", .array [.str "a"]),
          (.str "properties", .object [
            (.str "a", .object [(.str "type", .array [.str "number", .str "array"]),
              (.str "items", .object [(.str "type", .str "string")])]),
            (.str "b", .object [(.str "type", .str "null")])]),
          (.str "title", .str "Row")])])
      (.array [.object [(.str "a", .scalar (.int 1)), (.str "b", .scalar .null)],
        .object [(.str "a", .array [])]]) := by
  have hjson : (Sample.array [.object [(.str "a", .scalar (.int 1)), (.str "b", .scalar .null)],
      .object [(.str "a", .array [])]]).IsJson := by
    simp
  obtain ⟨schema, heq, h⟩ := inferSchema_accepts hjson (by simp) (some "Row")
  cases heq
  exact h

end SchemaForge.Inference
