import SchemaForge.Proofs.Editor.FieldEdits

/-!
Taking a name out of the required ones, by itself or with its field. Both ways take out the first occurrence of
the name and leave all other names where they are, and the list goes with its last name. A name that is listed
once is gone; one that is listed more often is required still, of a field that may no longer be there.
-/

namespace SchemaForge

namespace Fields

variable {ms : Members} {name : String} {names : List Value}

theorem requires_dropped (h : Requires ms names) :
    Requires (switched (.str name) false names ms) (dropName (.str name) names) := by
  have hswitched := requires_switched h (.str name) false
  split at hswitched
  · next hlisted => rwa [dropName_of_not_occurs hlisted]
  · exact hswitched

/-- A list that has lost its last name is gone. -/
theorem find?_required_of_emptied (hnames : names ≠ []) (hempty : dropName (.str name) names = []) :
    Members.find? (.str "required") (switched (.str name) false names ms) = none := by
  have hlisted : (Value.str name).occurs names ≠ false := by
    intro hfree
    rw [dropName_of_not_occurs hfree] at hempty
    exact hnames hempty
  rw [switched, if_neg hlisted, if_neg (by simp), relist, if_pos hempty]
  exact Members.find?_erase_self _ _

/-- The members `ns` of a node from whose required names `names` one occurrence of `name` was taken, if it was
there. -/
structure Dropped (name : String) (names : List String) (ns : Members) (left : List String) : Prop where
  requires : Requires ns (left.map .str)
  others : left.filter (· ≠ name) = names.filter (· ≠ name)
  count : left.count name = names.count name - 1
  emptied : names ≠ [] → left = [] → Members.find? (.str "required") ns = none

theorem dropped_switched {names : List String} (h : Requires ms (names.map .str)) :
    Dropped name names (switched (.str name) false (names.map .str) ms) (names.erase name) where
  requires := dropName_map_str name names ▸ requires_dropped h
  others := filter_ne_erase name names
  count := List.count_erase_self
  emptied := fun hnames hleft =>
    find?_required_of_emptied (by simpa using hnames) (by rw [dropName_map_str, hleft, List.map_nil])

end Fields

namespace Editor

open Fields

variable {editor : Editor} {owner : Path} {ms : Members} {name : String} {names : List String}

/-- A field that is deleted was there. -/
theorem exists_field_of_deleteField {v : Value} (node : editor.document.get owner = .ok (.object ms))
    (hreply : (editor.perform (deleteField owner name)).reply = .ok v) :
    ∃ fields, Members.find? (.str "properties") ms = some (.object fields) ∧
      Members.has (.str name) fields = true := by
  rcases perform_cases editor (deleteField owner name) with ⟨_, _, hyields, -⟩ | ⟨_, _, -, heq⟩
  · obtain ⟨field, _, _, hfield, -⟩ := Draft.exists_of_deleteField hyields
    rw [show owner ++ [Value.str "properties", .str name] =
      (owner ++ [.str "properties"]) ++ [.str name] by simp] at hfield
    obtain ⟨props, hprops, hchild⟩ := Value.get_snoc_eq_ok_iff.mp hfield
    have hfind := (Value.get_snoc_object node _).mp hprops
    obtain ⟨fields, k, rfl, hk, hv⟩ | ⟨_, _, _, _, hk, -⟩ := Value.exists_of_child hchild
    · cases hk
      exact ⟨fields, hfind, by simp [Members.has, hv]⟩
    · cases hk
  · rw [heq] at hreply
    cases hreply

/-- No longer requiring a field, and deleting one, take one occurrence of its name out of the required names.
The name is gone if it was listed once; the first of the two always succeeds, the second if the field is there. -/
theorem required_dropped (node : editor.document.get owner = .ok (.object ms))
    (requires : Requires ms (names.map .str)) (name : String) :
    (editor.perform (switchField owner name false)).reply = .ok .null ∧
      ((editor.perform (deleteField owner name)).reply = .ok .null ↔
        ∃ fields, Members.find? (.str "properties") ms = some (.object fields) ∧
          Members.has (.str name) fields = true) ∧
      ∀ operation reply, operation = switchField owner name false ∨ operation = deleteField owner name →
        (editor.perform operation).reply = .ok reply →
          ∃ ns left, (editor.perform operation).editor.document.get owner = .ok (.object ns) ∧
            Dropped name names ns left ∧ (name ∈ left ↔ 1 < names.count name) := by
  have hmem : name ∈ names.erase name ↔ 1 < names.count name := by
    rw [← List.count_pos_iff, List.count_erase_self]
    omega
  obtain ⟨hswitched, hdocument⟩ := perform_switchField node requires name false
  refine ⟨hswitched, ⟨exists_field_of_deleteField node, ?_⟩, ?_⟩
  · rintro ⟨fields, hfields, hname⟩
    exact (perform_deleteField ⟨node, hfields, requires⟩ hname).1
  · rintro operation reply (rfl | rfl) hreply
    · rw [hdocument]
      exact ⟨_, _, Value.get_put node _, dropped_switched requires, hmem⟩
    · obtain ⟨fields, hfields, hname⟩ := exists_field_of_deleteField node hreply
      have owns : Owns editor.document owner ms fields (names.map .str) := ⟨node, hfields, requires⟩
      rw [(perform_deleteField owns hname).2]
      exact ⟨_, _, Value.get_put node _, dropped_switched (owns.after_refield _).required, hmem⟩

def requiring (names : List String) : Members :=
  [(.str "type", .str "object"), (.str "required", .array (names.map .str)),
    (.str "properties", .object [(.str "a", Schema.stringNode), (.str "b", Schema.stringNode)])]

def editorRequiring (names : List String) : Editor := ⟨.object (requiring names), .initial, 1, []⟩

/-- A name that is listed once is gone with its field, and another one stays. -/
theorem required_dropped_once :
    ∃ ns left, ((editorRequiring ["b", "a"]).perform (deleteField [] "a")).editor.document.get [] =
        .ok (.object ns) ∧ Dropped "a" ["b", "a"] ns left ∧ "a" ∉ left := by
  have node : (editorRequiring ["b", "a"]).document.get [] = .ok (.object (requiring ["b", "a"])) := rfl
  have requires : Requires (requiring ["b", "a"]) (["b", "a"].map .str) := .inl rfl
  obtain ⟨-, hdeleted, hdropped⟩ := required_dropped node requires "a"
  obtain ⟨ns, left, hget, dropped, hmem⟩ :=
    hdropped _ _ (.inr rfl) (hdeleted.mpr ⟨_, rfl, rfl⟩)
  exact ⟨ns, left, hget, dropped, fun h => absurd (hmem.mp h) (by decide)⟩

/-- A name that is listed twice is required still, after its field was deleted as much as after it was no longer
to be required. -/
theorem removal_leaves_repeated :
    ∃ editor, Editor.new (some (.object [(.str "type", .str "object"),
          (.str "properties", .object [(.str "a", .object [(.str "type", .str "string")])]),
          (.str "required", .array [.str "a", .str "a"])])) = .ok editor ∧
        (editor.perform (deleteField [] "a")).reply = .ok .null ∧
        (editor.perform (deleteField [] "a")).editor.document.get [.str "properties"] =
          .ok (.object []) ∧
        (editor.perform (deleteField [] "a")).editor.document.get [.str "required"] =
          .ok (.array [.str "a"]) ∧
        (editor.perform (switchField [] "a" false)).reply = .ok .null ∧
        (editor.perform (switchField [] "a" false)).editor.document.get [.str "required"] =
          .ok (.array [.str "a"]) :=
  ⟨_, rfl, rfl, rfl, rfl, rfl, rfl⟩

end Editor

end SchemaForge
