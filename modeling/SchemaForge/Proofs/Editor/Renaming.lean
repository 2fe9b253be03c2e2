import SchemaForge.Proofs.Editor.FieldEdits

/-!
Renaming a field. The mapping keeps its order and its values, the list of required names follows, and so does
the entry of the tree view; a rename that is refused leaves everything as it is. If the new name was neither
that of a field nor among the required names, renaming the field back gives the document back. The list of
required names looks at names alone, and so a name that it holds already may come into it once more.
-/

namespace SchemaForge

namespace Fields

variable {old new : String} {fields : Members}

/-- A field may be renamed if it is there and its new name is another one and free. A name that leads to null
is free. -/
structure Renamable (old new : String) (fields : Members) : Prop where
  ne : old ≠ new
  free : (Members.find? (.str new) fields).getD .null = .null
  isField : Members.has (.str old) fields = true

theorem not_mem_keys_renamed (hne : old ≠ new) : .str old ∉ Members.keys (renamed old new fields) := by
  intro hmem
  obtain ⟨n, hn, hkey⟩ := List.mem_map.mp hmem
  obtain ⟨m, -, rfl⟩ := List.mem_map.mp hn
  by_cases hold : m.1 = .str old
  · rw [if_pos hold] at hkey
    exact hne (Scalar.str.inj hkey).symm
  · rw [if_neg hold] at hkey
    exact hold hkey

/-- The new name leads to what the old one led to. -/
theorem find?_renamed (h : .str new ∉ Members.keys fields) :
    Members.find? (.str new) (renamed old new fields) = Members.find? (.str old) fields := by
  induction fields with
  | nil => rfl
  | cons m fields ih =>
      have hm : m.1 ≠ .str new := fun hkey => h (hkey ▸ List.mem_cons_self)
      have hrest : .str new ∉ Members.keys fields := fun hmem => h (List.mem_cons_of_mem _ hmem)
      have ih := ih hrest
      rw [renamed] at ih ⊢
      by_cases hold : m.1 = .str old
      · simp [Members.find?, hold]
      · simp [Members.find?, hold, hm, Scalar.same_str_iff, ih]

theorem renamed_renamed (h : .str new ∉ Members.keys fields) :
    renamed new old (renamed old new fields) = fields := by
  rw [renamed, renamed, List.map_map]
  refine map_eq_self_iff.mpr fun m hm => ?_
  obtain ⟨k, v⟩ := m
  by_cases hold : k = .str old
  · simp [hold]
  · have hnew : k ≠ .str new := fun hkey => h (hkey ▸ List.mem_map_of_mem hm)
    simp [hold, hnew]

section Back

variable (renamable : Renamable old new fields) (hnew : .str new ∉ Members.keys fields)

include renamable hnew

theorem renamable_back : Renamable new old (renamedFields old new fields) := by
  rw [renamedFields_of_not_mem hnew]
  refine ⟨renamable.ne.symm, ?_, ?_⟩
  · rw [(Members.find?_eq_none_iff ⟨_, rfl⟩).mpr (not_mem_keys_renamed renamable.ne)]
    rfl
  · rw [Members.has, find?_renamed hnew]
    exact renamable.isField

theorem renamedFields_back : renamedFields new old (renamedFields old new fields) = fields := by
  rw [renamedFields_of_not_mem hnew, renamedFields_of_not_mem (not_mem_keys_renamed renamable.ne),
    renamed_renamed hnew]

end Back

/-- A node with the members `ns` after its field `old` was renamed to `new`, when it had the members `ms` and
the required names `names`. -/
structure NodeRenamed (old new : String) (ms fields : Members) (names : List Value) (ns : Members) :
    Prop where
  keys : Members.keys ns = Members.keys ms
  fields : Members.find? (.str "properties") ns = some (.object (renamedFields old new fields))
  required : Members.find? (.str "required") ns =
    (Members.find? (.str "required") ms).map fun _ => .array (renamedNames old new names)
  other : ∀ k, k ≠ .str "properties" → k ≠ .str "required" → Members.find? k ns = Members.find? k ms

theorem keys_following {ms : Members} {names : List Value} :
    Members.keys (following old new names ms) = Members.keys ms := by
  unfold following
  split
  · next h => exact Members.keys_insert_of_has h
  · rfl

theorem nodeRenamed_following {ms : Members} {names : List Value}
    (hfields : Members.find? (.str "properties") ms = some (.object fields)) (hnames : Requires ms names)
    (old new : String) :
    NodeRenamed old new ms fields names
      (following old new names (refield (renamedFields old new fields) ms)) where
  keys := by
    have hhas : Members.has (.str "properties") ms = true := by simp [Members.has, hfields]
    rw [keys_following, refield, Members.keys_insert_of_has hhas]
  fields := by rw [find?_following_of_ne (by decide), find?_refield]
  required := by
    have hrequired : Members.find? (.str "required") (refield (renamedFields old new fields) ms) =
        Members.find? (.str "required") ms := Members.find?_insert_of_not_same (by decide) _ _
    rcases hnames with h | ⟨h, -⟩
    · simp [following, Members.has, hrequired, h, Members.find?_insert_self]
    · simp [following, Members.has, hrequired, h]
  other := fun k hproperties hrequired => by
    rw [find?_following_of_ne hrequired, refield,
      Members.find?_insert_of_not_same (Scalar.str_same_eq_false_of_ne hproperties)]

/-- The node is back as it was when its field is, if the new name was not among the required ones. -/
theorem following_refield_back {ms : Members} {names : List Value}
    (hfields : Members.find? (.str "properties") ms = some (.object fields)) (hnames : Requires ms names)
    (hnew : .str new ∉ names) (others : Members) :
    following new old (renamedNames old new names)
        (refield fields (following old new names (refield others ms))) = ms := by
  have hrefield : refield fields (following old new names (refield others ms)) =
      following old new names (refield fields (refield others ms)) :=
    insert_following (by decide) (has_refield others ms) old new _
  rw [hrefield, refield_refield, refield_self hfields, following_following hnames hnew]

end Fields

namespace Editor

open Fields

section Rename

variable {editor : Editor} {owner : Path} {ms fields : Members} {names : List Value}
  (owns : Owns editor.document owner ms fields names) (distinct : fields.Distinct) {old new : String}

include owns distinct

/-- All that becomes of an editor when a field may be renamed. -/
theorem perform_renameField {v : Value} (renamable : Renamable old new fields)
    (hv : Members.find? (.str old) fields = some v) :
    editor.perform (renameField owner old new) =
      ⟨{ editor with
          document := editor.document.put owner (.object
            (following old new names (refield (renamedFields old new fields) ms)))
          openNodes := Draft.renamedNodes editor.openNodes (owner ++ [.str "properties"]) (.str old)
            (.str new) v },
        [editor.document.put owner (.object
          (following old new names (refield (renamedFields old new fields) ms)))],
        [.renamed (.str old) (.str new) (owner ++ [.str "properties"])], .ok (.bool true)⟩ :=
  perform_of_yields editor (renameField owner old new)
    (Draft.yields_rename editor.openNodes owns distinct renamable.ne renamable.free hv
      ⟨editor.nextField, []⟩)

omit distinct in
/-- A rename that is refused or fails changes nothing, and is not heard of. -/
theorem perform_renameField_of_not_renamable (h : ¬ Renamable old new fields) :
    (editor.perform (renameField owner old new)).editor = editor ∧
      (editor.perform (renameField owner old new)).announced = [] ∧
      (editor.perform (renameField owner old new)).reply ≠ .ok (.bool true) := by
  by_cases hrefused : old = new ∨ (Members.find? (.str new) fields).getD .null ≠ .null
  · obtain ⟨notices, hyields⟩ := Draft.exists_yields_rename_refused editor.openNodes owns
      hrefused ⟨editor.nextField, []⟩
    rw [perform_of_yields editor (renameField owner old new) hyields]
    exact ⟨rfl, rfl, by simp [Draft.nothing]⟩
  · obtain ⟨hne, hfree⟩ := not_or.mp hrefused
    have hmissing : Members.find? (.str old) fields = none := by
      rw [← Option.not_isSome_iff_eq_none]
      exact fun hold => h ⟨hne, not_not.mp hfree, hold⟩
    have hrun := Draft.run_rename_missing editor.openNodes owns hne (not_not.mp hfree)
      hmissing ⟨editor.nextField, []⟩
    rw [perform_of_fault editor (renameField owner old new) hrun]
    exact ⟨rfl, rfl, by simp⟩

theorem reply_renameField_iff :
    (editor.perform (renameField owner old new)).reply = .ok (.bool true) ↔ Renamable old new fields := by
  constructor
  · intro hreply
    by_contra h
    exact (perform_renameField_of_not_renamable owns h).2.2 hreply
  · intro h
    obtain ⟨v, hv⟩ := Option.isSome_iff_exists.mp h.isField
    rw [perform_renameField owns distinct h hv]

end Rename

/-! ### The tree view -/

/-- The key of the properties of a field in the tree view. -/
def fieldKey (owner : Path) (name : String) : String :=
  Path.join (owner ++ [.str "properties", .str name, .str "properties"])

/-- Whether a value is an object with properties. -/
def HasProperties (v : Value) : Prop := ∃ ns, v = .object ns ∧ Members.has (.str "properties") ns = true

section TreeView

variable {nodes : OpenNodes} {owner : Path} {old new : String} {v : Value}

theorem find?_renamedNodes (h : HasProperties v) (key : String) :
    OpenNodes.find? key
        (Draft.renamedNodes nodes (owner ++ [.str "properties"]) (.str old) (.str new) v) =
      if key = fieldKey owner new then some ((OpenNodes.find? (fieldKey owner old) nodes).getD true)
      else if key = fieldKey owner old then none else OpenNodes.find? key nodes := by
  obtain ⟨ns, rfl, hns⟩ := h
  have hkey : ∀ name, Path.join (owner ++ [.str "properties"] ++ [.str name, .str "properties"]) =
      fieldKey owner name := fun name => by rw [List.append_assoc]; rfl
  rw [Draft.renamedNodes, if_pos hns, OpenNodes.find?_move, hkey, hkey]

theorem renamedNodes_of_not_hasProperties (h : ¬ HasProperties v) :
    Draft.renamedNodes nodes (owner ++ [.str "properties"]) (.str old) (.str new) v = nodes := by
  unfold Draft.renamedNodes
  split
  · next ns => rw [if_neg fun hns => h ⟨ns, rfl, hns⟩]
  · rfl

end TreeView

/-! ### There and back -/

/-- What a rename that succeeds makes of an editor: another node stands in the place of the one that owns the
field, and the entry that an object with properties has in the tree view stands at its new key. -/
structure RenamesField (editor : Editor) (o : Outcome) (owner : Path) (old new : String)
    (ms fields : Members) (names : List Value) : Prop where
  node : ∃ ns, NodeRenamed old new ms fields names ns ∧
    o.editor.document = editor.document.put owner (.object ns)
  announced : o.announced = [o.editor.document]
  moved : ∀ v, Members.find? (.str old) fields = some v → HasProperties v →
    ∀ key, OpenNodes.find? key o.editor.openNodes =
      if key = fieldKey owner new then
        some ((OpenNodes.find? (fieldKey owner old) editor.openNodes).getD true)
      else if key = fieldKey owner old then none else OpenNodes.find? key editor.openNodes
  kept : ∀ v, Members.find? (.str old) fields = some v → ¬ HasProperties v →
    o.editor.openNodes = editor.openNodes

section Exactness

variable {editor : Editor} {owner : Path} {ms fields : Members} {names : List Value}
  (owns : Owns editor.document owner ms fields names) (distinct : fields.Distinct)

include owns distinct

theorem renamesField {old new : String} (renamable : Renamable old new fields) :
    RenamesField editor (editor.perform (renameField owner old new)) owner old new ms fields names := by
  obtain ⟨v, hv⟩ := Option.isSome_iff_exists.mp renamable.isField
  rw [perform_renameField owns distinct renamable hv]
  have node := nodeRenamed_following owns.fields owns.required old new
  refine ⟨⟨_, node, rfl⟩, rfl, fun w hw hproperties => ?_, fun w hw hnone => ?_⟩
  · cases hv.symm.trans hw
    exact find?_renamedNodes hproperties
  · cases hv.symm.trans hw
    exact renamedNodes_of_not_hasProperties hnone

/-- A name that was neither that of a field nor required can be given back. -/
theorem perform_renameField_back {old new : String} (renamable : Renamable old new fields)
    (hnew : .str new ∉ Members.keys fields) (hnames : .str new ∉ names) :
    let back := (editor.perform (renameField owner old new)).editor.perform (renameField owner new old)
    back.reply = .ok (.bool true) ∧ back.editor.document = editor.document := by
  obtain ⟨v, hv⟩ := Option.isSome_iff_exists.mp renamable.isField
  rw [perform_renameField owns distinct renamable hv]
  -- The node that is there now owns the renamed fields, and among them the new name may be given up.
  have node := nodeRenamed_following owns.fields owns.required old new
  have owns' := owns.put node.fields (requires_following (owns.after_refield _).required old new)
  have distinct' := distinct_renamedFields distinct old new
  have hback := renamable_back renamable hnew
  obtain ⟨w, hw⟩ := Option.isSome_iff_exists.mp hback.isField
  rw [perform_renameField owns' distinct' hback hw]
  refine ⟨rfl, ?_⟩
  rw [renamedFields_back renamable hnew,
    following_refield_back owns.fields owns.required hnames, Value.put_put owns.node,
    Value.put_self owns.node]

/-- A rename is exact, and can be taken back. One that is refused changes nothing. -/
theorem rename_exact (old new : String) :
    let o := editor.perform (renameField owner old new)
    (o.reply = .ok (.bool false) → o.editor = editor ∧ o.announced = []) ∧
      (o.reply = .ok (.bool true) → RenamesField editor o owner old new ms fields names) ∧
      (o.reply = .ok (.bool true) → .str new ∉ Members.keys fields → .str new ∉ names →
        (o.editor.perform (renameField owner new old)).reply = .ok (.bool true) ∧
          (o.editor.perform (renameField owner new old)).editor.document = editor.document) := by
  refine ⟨fun hreply => ?_, fun hreply => ?_, fun hreply hnew hnames => ?_⟩
  · have hrefused : ¬ Renamable old new fields := by
      rw [← reply_renameField_iff owns distinct, hreply]
      simp
    obtain ⟨hsame, hsilent, -⟩ := perform_renameField_of_not_renamable owns hrefused
    exact ⟨hsame, hsilent⟩
  · exact renamesField owns distinct ((reply_renameField_iff owns distinct).mp hreply)
  · exact perform_renameField_back owns distinct ((reply_renameField_iff owns distinct).mp hreply) hnew
      hnames

end Exactness

def homeFields : Members :=
  [(.str "city", .object [(.str "type", .str "object"), (.str "properties", .object [])]),
    (.str "zip", Schema.stringNode)]

def homeMembers : Members :=
  [(.str "type", .str "object"), (.str "required", .array [.str "zip", .str "city"]),
    (.str "properties", .object homeFields)]

def home : Path := [.str "properties", .str "home"]

def address : Editor where
  document := .object [(.str "type", .str "object"),
    (.str "properties", .object [(.str "home", .object homeMembers)])]
  openNodes := [("properties", true), ("properties.home.properties.city.properties", false)]
  nextField := 1
  listeners := [0]

/-- A name that is taken is refused; a free one takes the entry of the tree view along, and is given back. -/
theorem rename_exact_address :
    (address.perform (renameField home "city" "zip")).editor = address ∧
      OpenNodes.find? "properties.home.properties.town.properties"
        (address.perform (renameField home "city" "town")).editor.openNodes = some false ∧
      ((address.perform (renameField home "city" "town")).editor.perform
        (renameField home "town" "city")).editor.document = address.document := by
  have owns : Owns address.document home homeMembers homeFields [.str "zip", .str "city"] :=
    ⟨rfl, rfl, .inl rfl⟩
  obtain ⟨hrefused, -, -⟩ := rename_exact owns (by decide) "city" "zip"
  obtain ⟨-, hrenamed, hback⟩ := rename_exact owns (by decide) "city" "town"
  refine ⟨(hrefused rfl).1, ?_, (hback rfl (by decide) (by decide)).2⟩
  exact (hrenamed rfl).moved _ rfl ⟨_, rfl, rfl⟩ "properties.home.properties.town.properties"

/-! ### Names that are required twice -/

section Repetition

variable {old new : String} {names : List String}

theorem nodup_renamed_iff (hne : old ≠ new) (h : names.Nodup) :
    (names.map fun n => if n = old then new else n).Nodup ↔ old ∉ names ∨ new ∉ names := by
  constructor
  · intro hnodup
    by_contra hboth
    obtain ⟨hold, hnew⟩ := not_or.mp hboth
    refine hne (List.inj_on_of_nodup_map hnodup (not_not.mp hold) (not_not.mp hnew) ?_)
    simp
  · rintro (hold | hnew)
    · have hself : (names.map fun n => if n = old then new else n) = names := by
        refine map_eq_self_iff.mpr fun n hn => if_neg ?_
        rintro rfl
        exact hold hn
      rwa [hself]
    · exact nodup_map_replace h hnew old

/-- The names that are required after a rename are those of fields, if they were before. -/
theorem mem_keys_renamedFields {fields : Members} (renamable : Renamable old new fields) {n : String}
    (h : .str n ∈ Members.keys fields) :
    .str (if n = old then new else n) ∈ Members.keys (renamedFields old new fields) := by
  have hfilter : ∀ k : Scalar, k ≠ .str new → k ∈ Members.keys fields →
      k ∈ Members.keys (fields.filter (·.1 ≠ .str new)) := by
    intro k hk hmem
    obtain ⟨m, hm, rfl⟩ := List.mem_map.mp hmem
    exact List.mem_map_of_mem (List.mem_filter.mpr ⟨hm, by simpa using hk⟩)
  have hold : .str old ∈ Members.keys (fields.filter (·.1 ≠ .str new)) :=
    hfilter _ (by simpa using renamable.ne) ((Members.has_iff ⟨_, rfl⟩).mp renamable.isField)
  have hnew : .str (if old = old then new else old) ∈ Members.keys (renamedFields old new fields) :=
    mem_keys_renamed hold
  rw [if_pos rfl] at hnew
  by_cases hn : n = new
  · -- The field with the new name is gone, and the renamed one has it.
    rw [hn]
    split <;> exact hnew
  · exact mem_keys_renamed (hfilter _ (by simpa using hn) h)

end Repetition

/-- After a rename the required names are those that were required, with the new name for the old one, and all
of them are names of fields. They are different ones unless both names were required. -/
theorem nodup_required_rename {editor : Editor} {owner : Path} {ms fields : Members} {names : List String}
    (node : editor.document.get owner = .ok (.object ms))
    (isFields : Members.find? (.str "properties") ms = some (.object fields))
    (required : Members.find? (.str "required") ms = some (.array (names.map .str)))
    (distinct : fields.Distinct) (nodup : names.Nodup)
    (among : ∀ n ∈ names, .str n ∈ Members.keys fields)
    {old new : String} (hreply : (editor.perform (renameField owner old new)).reply = .ok (.bool true)) :
    ∃ names' fields', names' = (names.map fun n => if n = old then new else n) ∧
        (editor.perform (renameField owner old new)).editor.document.get
          (owner ++ [.str "required"]) = .ok (.array (names'.map .str)) ∧
        (editor.perform (renameField owner old new)).editor.document.get
          (owner ++ [.str "properties"]) = .ok (.object fields') ∧
        (∀ n ∈ names', .str n ∈ Members.keys fields') ∧
        (names'.Nodup ↔ old ∉ names ∨ new ∉ names) := by
  have owns : Owns editor.document owner ms fields (names.map .str) := ⟨node, isFields, .inl required⟩
  have renamable := (reply_renameField_iff owns distinct).mp hreply
  obtain ⟨ns, renamed, hdocument⟩ := (renamesField owns distinct renamable).node
  have hget := Value.get_put node (.object ns)
  rw [hdocument]
  refine ⟨_, _, rfl, (Value.get_snoc_object hget _).mpr ?_,
    (Value.get_snoc_object hget _).mpr renamed.fields, fun n hn => ?_,
    nodup_renamed_iff renamable.ne nodup⟩
  · rw [renamed.required, required, ← renamedNames_map_str]
    rfl
  · obtain ⟨m, hm, rfl⟩ := List.mem_map.mp hn
    exact mem_keys_renamedFields renamable (among m hm)

/-- One of two required fields is renamed. -/
theorem nodup_required_rename_address :
    ∃ names' : List String, names' = ["zip", "town"] ∧ names'.Nodup ∧
      (address.perform (renameField home "city" "town")).editor.document.get
        (home ++ [.str "required"]) = .ok (.array (names'.map .str)) := by
  have hfields : Members.find? (.str "properties") homeMembers = some (.object homeFields) := rfl
  have hrequired : Members.find? (.str "required") homeMembers =
      some (.array (["zip", "city"].map .str)) := rfl
  have hreply : (address.perform (renameField home "city" "town")).reply = .ok (.bool true) := rfl
  obtain ⟨names', _, hnames, hget, -, -, hnodup⟩ :=
    nodup_required_rename rfl hfields hrequired (by decide) (by decide) (by decide) hreply
  exact ⟨names', hnames, hnodup.mpr (.inr (by decide)), hget⟩

/-- A field is given the name of another one, which leads to null and is required: it is required twice. -/
theorem rename_repeats_required :
    ∃ editor, Editor.new (some (.object [(.str "type", .str "object"), (.str "properties", .object
          [(.str "a", .object [(.str "type", .str "string")]), (.str "b", .null)]),
          (.str "required", .array [.str "a", .str "b"])])) = .ok editor ∧
        editor.document.get [.str "required"] = .ok (.array [.str "a", .str "b"]) ∧
        editor.document.get [.str "properties"] = .ok (.object
          [(.str "a", .object [(.str "type", .str "string")]), (.str "b", .null)]) ∧
        (editor.perform (renameField [] "a" "b")).reply = .ok (.bool true) ∧
        (editor.perform (renameField [] "a" "b")).editor.document.get [.str "required"] =
          .ok (.array [.str "b", .str "b"]) :=
  ⟨_, rfl, rfl, rfl, rfl, rfl⟩

end Editor

end SchemaForge
