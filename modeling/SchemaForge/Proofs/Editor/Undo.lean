import SchemaForge.Proofs.Editor.FieldEdits

/-!
Field edits that undo each other. A field that is added is deleted under the name that it was given, and a name
that becomes required is taken back: the document is the one before, with all keys in their places. The list of
required names that an edit has to begin goes with the last name, and one that it found comes back as it was.
Only a list that was empty before would be lost. A field that is to come after the key that is no number does not
come at all, and cannot be deleted.
-/

namespace SchemaForge

namespace Fields

variable {ms fields : Members} {names : List Value} {name : String}

/-- The node is back as it was when its fields are, once the name that became required is not required again. -/
theorem switched_refield_back (hfields : Members.find? (.str "properties") ms = some (.object fields))
    (hnames : Requires ms names) (hlist : Members.find? (.str "required") ms ≠ some (.array []))
    (hname : .str name ∉ names) (others : Members) :
    switched (.str name) false (names ++ [.str name])
        (refield fields (switched (.str name) true names (refield others ms))) = ms := by
  have hrefield : refield fields (switched (.str name) true names (refield others ms)) =
      switched (.str name) true names (refield fields (refield others ms)) :=
    insert_switched (by decide) (has_refield others ms) _ _ _
  rw [hrefield, refield_refield, refield_self hfields, switched_switched hnames hlist hname]

/-- The required names of a node once a further one was required. -/
theorem requires_required (h : Requires ms names) (hname : .str name ∉ names) :
    Requires (switched (.str name) true names ms) (names ++ [.str name]) := by
  have hswitched := requires_switched h (.str name) true
  rwa [Value.occurs_str_eq_false_iff.mpr hname, if_neg (by simp), if_pos rfl] at hswitched

end Fields

namespace Editor

open Fields

section Undo

variable {editor : Editor} {owner : Path} {ms fields : Members} {names : List Value}
  (owns : Owns editor.document owner ms fields names)
  (hlist : Members.find? (.str "required") ms ≠ some (.array []))

include owns hlist

/-- Deleting a field that was added, whichever way, gives the document back. -/
theorem Adds.undo {o : Outcome} {after : Value} {name : String}
    (adds : Adds editor o owner ms fields names after name) (hname : .str name ∉ names) :
    (o.editor.perform (deleteField owner name)).reply = .ok .null ∧
      (o.editor.perform (deleteField owner name)).editor.document = editor.document := by
  have hfields : Members.find? (.str "properties")
      (switched (.str name) true names (refield (grown after name fields) ms)) =
        some (.object (grown after name fields)) := by
    rw [find?_switched_of_ne (by decide), find?_refield]
  have owns' : Owns o.editor.document owner
      (switched (.str name) true names (refield (grown after name fields) ms))
      (grown after name fields) (names ++ [.str name]) := by
    rw [adds.document]
    exact owns.put hfields (requires_required (owns.after_refield _).required hname)
  obtain ⟨hreply, hdocument⟩ := perform_deleteField owns' (has_grown adds.place)
  refine ⟨hreply, ?_⟩
  rw [hdocument, erase_grown adds.free, switched_refield_back owns.fields owns.required hlist hname,
    adds.document, Value.put_put owns.node, Value.put_self owns.node]

/-- Taking back that a name is required gives the document back. -/
theorem perform_switchField_back {name : String} (hname : .str name ∉ names) :
    ((editor.perform (switchField owner name true)).editor.perform
        (switchField owner name false)).reply = .ok .null ∧
      ((editor.perform (switchField owner name true)).editor.perform
        (switchField owner name false)).editor.document = editor.document := by
  obtain ⟨-, hdocument⟩ := perform_switchField owns.node owns.required name true
  have hget : (editor.perform (switchField owner name true)).editor.document.get owner =
      .ok (.object (switched (.str name) true names ms)) := by
    rw [hdocument]
    exact Value.get_put owns.node _
  obtain ⟨hreply, hback⟩ := perform_switchField hget (requires_required owns.required hname) name false
  refine ⟨hreply, ?_⟩
  rw [hback, hdocument, switched_switched owns.required hlist hname, Value.put_put owns.node,
    Value.put_self owns.node]

/-- Field edits undo each other. A field is added and deleted, a name is made required and no longer so: each
step succeeds, and the document is the one before. -/
theorem field_edits_undo :
    (∀ operation, Addition owner fields operation →
        ∃ name, (editor.perform operation).reply = .ok (.str name) ∧
          (.str name ∉ names →
            ((editor.perform operation).editor.perform (deleteField owner name)).reply = .ok .null ∧
              ((editor.perform operation).editor.perform (deleteField owner name)).editor.document =
                editor.document)) ∧
      ∀ name, .str name ∉ names →
        (editor.perform (switchField owner name true)).reply = .ok .null ∧
          ((editor.perform (switchField owner name true)).editor.perform
            (switchField owner name false)).reply = .ok .null ∧
          ((editor.perform (switchField owner name true)).editor.perform
            (switchField owner name false)).editor.document = editor.document := by
  refine ⟨fun operation addition => ?_, fun name hname => ?_⟩
  · obtain ⟨after, name, adds⟩ := exists_adds owns addition
    exact ⟨name, adds.reply, adds.undo owns hlist⟩
  · exact ⟨(perform_switchField owns.node owns.required name true).1,
      perform_switchField_back owns hlist hname⟩

end Undo

def rowFields : Members :=
  [(.str "x", .object [(.str "type", .str "number")]), (.str "y", Schema.stringNode)]

def rows : Editor where
  document := .object [(.str "type", .str "object"), (.str "properties", .object
    [(.str "rows", .object [(.str "type", .str "array"), (.str "items", .object
      [(.str "type", .str "object"), (.str "properties", .object rowFields)])])])]
  openNodes := .initial
  nextField := 1
  listeners := []

def inRows : Path := [.str "properties", .str "rows", .str "items"]

/-- A field between the two and a list of required names come and go. -/
theorem field_edits_undo_rows :
    ((rows.perform (addSibling inRows (.str "x"))).editor.perform
        (deleteField inRows "field_1")).editor.document = rows.document ∧
      ((rows.perform (switchField inRows "y" true)).editor.perform
        (switchField inRows "y" false)).editor.document = rows.document := by
  have owns : Owns rows.document inRows
      [(.str "type", .str "object"), (.str "properties", .object rowFields)] rowFields [] :=
    ⟨rfl, rfl, .inr ⟨rfl, rfl⟩⟩
  obtain ⟨hadded, hswitched⟩ := field_edits_undo owns (by decide)
  have addition : Addition inRows rowFields (addSibling inRows (.str "x")) :=
    .next (k := .str "x") (by decide) rfl
  obtain ⟨name, hname, hundo⟩ := hadded _ addition
  have hfirst : (rows.perform (addSibling inRows (.str "x"))).reply = .ok (.str "field_1") := rfl
  cases hfirst.symm.trans hname
  exact ⟨(hundo (by simp)).2, (hswitched "y" (by simp)).2.2⟩

/-- The key that is no number is found among the fields, but it equals no key. A field that is to come after it gets
its name and is required; it does not come, and deleting it fails. -/
theorem deleteField_fails_after_nan :
    ∃ start editor, Editor.new none = .ok start ∧
      editor = (start.perform (.setValue (.array [.str "properties", .float .nan]) Schema.stringNode)).editor ∧
      Owns editor.document [] [(.str "type", .str "object"), (.str "title", .str "title"),
        (.str "properties", .object [(.float .nan, Schema.stringNode)])] [(.float .nan, Schema.stringNode)] [] ∧
      (editor.perform (addSibling [] (.float .nan))).reply = .ok (.str "field_1") ∧
      (editor.perform (addSibling [] (.float .nan))).editor.document.get [.str "properties"] =
        editor.document.get [.str "properties"] ∧
      (editor.perform (addSibling [] (.float .nan))).editor.document.get [.str "required"] =
        .ok (.array [.str "field_1"]) ∧
      ((editor.perform (addSibling [] (.float .nan))).editor.perform (deleteField [] "field_1")).reply =
        .error (.pathNotFound [.str "properties", .str "field_1"] 1) :=
  ⟨_, _, rfl, rfl, ⟨rfl, rfl, .inr ⟨rfl, rfl⟩⟩, rfl, rfl, rfl, rfl⟩

end Editor

end SchemaForge
