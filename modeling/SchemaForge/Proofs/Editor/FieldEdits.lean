import SchemaForge.Proofs.Editor.NameLists
import SchemaForge.Proofs.Editor.Steps

/-!
What becomes of a document when a field of one of its nodes is renamed, required or not, deleted or added.
An edit looks up the node that owns the fields, its fields and its required names, and puts the node back with
other ones; where these are there, the whole outcome of the edit can be written down. The node still owns its
fields then, so that one edit may follow another.
-/

namespace SchemaForge

namespace Fields

/-- A node with other fields. -/
def refield (fields ms : Members) : Members := Members.insert (.str "properties") (.object fields) ms

theorem find?_refield (fields ms : Members) :
    Members.find? (.str "properties") (refield fields ms) = some (.object fields) :=
  Members.find?_insert_self _ _ _

theorem has_refield (fields ms : Members) : Members.has (.str "properties") (refield fields ms) = true := by
  rw [Members.has, find?_refield]
  rfl

theorem refield_refield (fields others ms : Members) :
    refield fields (refield others ms) = refield fields ms :=
  Members.insert_insert _ _ _ _

theorem refield_self {fields ms : Members}
    (h : Members.find? (.str "properties") ms = some (.object fields)) : refield fields ms = ms :=
  Members.insert_of_find? h

/-- An object holds what one of its keys equals. -/
theorem holds_of_equals {fields : Members} {m : Scalar × Value} {v : Value} (hm : m ∈ fields)
    (h : (Value.scalar m.1).equals v = true) : (Value.object fields).holds v = .ok true := by
  cases v with
  | scalar k =>
      have hsame := same_of_equals h
      have hhas : Members.has k fields = true := by
        rw [← Bool.not_eq_false, Members.has_eq_false_iff]
        intro hfree
        rw [hfree m hm] at hsame
        cases hsame
      exact congrArg Except.ok hhas
  | _ => simp [Value.equals, Value.same] at h

theorem exists_nextNumber_object (fields : Members) (number : Nat) :
    ∃ n, nextNumber (.object fields) number = .ok n := by
  have helements : (Value.object fields).elements = .ok (fields.map fun m => .scalar m.1) := rfl
  exact exists_nextNumber helements number

/-- Where the fields of a document stand that an edit is about: `ms` are the members of the node that `owner`
leads to, `fields` are its properties and `names` its required names. -/
structure Owns (doc : Value) (owner : Path) (ms fields : Members) (names : List Value) : Prop where
  node : doc.get owner = .ok (.object ms)
  fields : Members.find? (.str "properties") ms = some (.object fields)
  required : Requires ms names

section Owns

variable {doc : Value} {owner : Path} {ms fields : Members} {names : List Value}
  (owns : Owns doc owner ms fields names)

include owns

theorem Owns.get_fields : doc.get (owner ++ [.str "properties"]) = .ok (.object fields) :=
  (Value.get_snoc_object owns.node _).mpr owns.fields

theorem Owns.set_fields (others : Members) :
    doc.set (owner ++ [.str "properties"]) (.object others) =
      .ok (doc.put owner (.object (refield others ms))) :=
  Value.set_snoc_object owns.node _ _

theorem Owns.put {ns others : Members} {names' : List Value}
    (hothers : Members.find? (.str "properties") ns = some (.object others)) (hnames : Requires ns names') :
    Owns (doc.put owner (.object ns)) owner ns others names' :=
  ⟨Value.get_put owns.node _, hothers, hnames⟩

/-- The node with other fields, before the edit gets to the required names. -/
theorem Owns.after_refield (others : Members) :
    Owns (doc.put owner (.object (refield others ms))) owner (refield others ms) others names :=
  owns.put (find?_refield others ms)
    (owns.required.congr (Members.find?_insert_of_not_same (by decide) _ _))

theorem Owns.withRequired_refield (others : Members) (name : Value) (required : Bool) :
    withRequired (doc.put owner (.object (refield others ms))) (owner ++ [.str "properties"]) name required =
      .ok (doc.put owner (.object (switched name required names (refield others ms)))) := by
  have hmiddle := owns.after_refield others
  rw [withRequired_eq hmiddle.node hmiddle.required, Value.put_put owns.node]

theorem Owns.renameRequired_refield (others : Members) (old new : String) :
    renameRequired (doc.put owner (.object (refield others ms))) (owner ++ [.str "properties"])
        (.str old) (.str new) =
      .ok (doc.put owner (.object (following old new names (refield others ms)))) := by
  have hmiddle := owns.after_refield others
  rw [renameRequired_eq hmiddle.node hmiddle.required, Value.put_put owns.node]

end Owns

end Fields

namespace Draft

open Fields

variable {doc : Value} (nodes : OpenNodes) {owner : Path} {ms fields : Members} {names : List Value}

/-- Whether a field is required takes the node and its list alone, whatever its fields are. -/
theorem yields_toggleRequired (hnode : doc.get owner = .ok (.object ms)) (hnames : Requires ms names)
    (name : Value) (required : Bool) (s : Ledger) :
    (toggleRequired doc nodes (owner ++ [.str "properties"]) name required).Yields s
      ⟨if name.occurs names = required then none
        else some (doc.put owner (.object (switched name required names ms))), nodes, .null⟩ s := by
  rw [toggleRequired, setRequired_eq hnode hnames, lift_ok_bind]
  exact yields_pure_iff.mpr ⟨rfl, rfl⟩

section Owns

variable (owns : Owns doc owner ms fields names)

include owns

theorem yields_deleteField {name : String} (hname : Members.has (.str name) fields = true) (s : Ledger) :
    (deleteField doc nodes (owner ++ [.str "properties", .str name]) true).Yields s
      (commit nodes (doc.put owner (.object
        (switched (.str name) false names (refield (Members.erase (.str name) fields) ms)))))
      { s with notices := s.notices ++ [.deleted (owner ++ [.str "properties", .str name])] } := by
  have hpath : owner ++ [.str "properties", .str name] = (owner ++ [.str "properties"]) ++ [.str name] := by
    simp
  obtain ⟨v, hv⟩ := Option.isSome_iff_exists.mp hname
  have hget : doc.get (owner ++ [.str "properties", .str name]) = .ok v := by
    rw [hpath]
    exact (Value.get_snoc_object owns.get_fields _).mpr hv
  have hremove : doc.remove (owner ++ [.str "properties", .str name]) =
      .ok (doc.put owner (.object (refield (Members.erase (.str name) fields) ms))) := by
    rw [hpath, Value.remove_snoc_object owns.get_fields, filter_equals_eq_erase,
      Value.put_snoc_object owns.node owns.fields]
    rfl
  rw [deleteField, hget, lift_ok_bind, hremove, lift_ok_bind, pruneRequired_field]
  simp only [if_true, owns.withRequired_refield, lift_ok_bind, yields_tell_bind_iff,
    yields_pure_iff, and_self]

/-- A field is renamed if its new name is another one, is free or leads to null, and the old one is there. -/
theorem yields_rename (distinct : fields.Distinct) {old new : String} {v : Value} (hne : old ≠ new)
    (hnew : (Members.find? (.str new) fields).getD .null = .null)
    (hold : Members.find? (.str old) fields = some v) (s : Ledger) :
    (rename doc nodes (owner ++ [.str "properties"]) (.str old) (.str new)).Yields s
      ⟨some (doc.put owner (.object (following old new names
          (refield (renamedFields old new fields) ms)))),
        renamedNodes nodes (owner ++ [.str "properties"]) (.str old) (.str new) v, .bool true⟩
      { s with notices := s.notices ++ [.renamed (.str old) (.str new) (owner ++ [.str "properties"])] } := by
  have hequals : ¬ (Value.str new).equals (.str old) = true := by
    rw [Value.equals_str_iff]
    simpa using hne.symm
  rw [rename, owns.get_fields, lift_ok_bind, if_neg hequals]
  simp only [Value.members_object, Value.key_scalar, lift_ok_bind, ne_eq, hnew, not_true_eq_false,
    if_false, hold, renameKey_eq distinct, owns.set_fields, owns.renameRequired_refield,
    yields_tell_bind_iff, yields_pure_iff, and_self]

/-- A new name that is the old one, or that leads to something, is refused. -/
theorem exists_yields_rename_refused {old new : String}
    (h : old = new ∨ (Members.find? (.str new) fields).getD .null ≠ .null) (s : Ledger) :
    ∃ notices, (rename doc nodes (owner ++ [.str "properties"]) (.str old) (.str new)).Yields s
      (nothing nodes (.bool false)) { s with notices := notices } := by
  rw [rename, owns.get_fields, lift_ok_bind]
  by_cases hequals : (Value.str new).equals (.str old) = true
  · rw [if_pos hequals]
    exact ⟨s.notices, yields_pure_iff.mpr ⟨rfl, rfl⟩⟩
  · have htaken : (Members.find? (.str new) fields).getD .null ≠ .null := by
      refine h.resolve_left fun heq => hequals ?_
      rw [heq]
      exact Value.equals_str_iff.mpr rfl
    rw [if_neg hequals]
    simp only [Value.members_object, Value.key_scalar, lift_ok_bind, if_pos htaken,
      yields_tell_bind_iff, yields_pure_iff, true_and]
    exact ⟨_, rfl⟩

/-- A field that is not there cannot be renamed. -/
theorem run_rename_missing {old new : String} (hne : old ≠ new)
    (hnew : (Members.find? (.str new) fields).getD .null = .null)
    (hold : Members.find? (.str old) fields = none) (s : Ledger) :
    (rename doc nodes (owner ++ [.str "properties"]) (.str old) (.str new)).run.run s =
      (.error (.pathNotFound (owner ++ [.str "properties"] ++ [.str old])
        (owner ++ [Value.str "properties"]).length), s) := by
  have hequals : ¬ (Value.str new).equals (.str old) = true := by
    rw [Value.equals_str_iff]
    simpa using hne.symm
  rw [rename, owns.get_fields, lift_ok_bind, if_neg hequals]
  simp only [Value.members_object, Value.key_scalar, lift_ok_bind, ne_eq, hnew, not_true_eq_false,
    if_false, hold]
  rfl

/-! ### New fields -/

/-- A field is added after a key if one of the fields has a key that equals it, and else at the end. -/
theorem exists_yields_addSiblingField {after : Value}
    (hafter : after = .null ∨ ∃ m ∈ fields, (Value.scalar m.1).equals after = true) (s : Ledger) :
    ∃ n, nextNumber (.object fields) s.nextField = .ok n ∧
      (addSiblingField doc nodes (owner ++ [.str "properties"]) after).Yields s
        ⟨some (doc.put owner (.object
            (switched (.str (fieldName n)) true names (refield (grown after (fieldName n) fields) ms)))),
          nodes, .str (fieldName n)⟩
        ⟨n + 1, s.notices ++ [.addedField (fieldName n) (owner ++ [.str "properties"])]⟩ := by
  obtain ⟨n, hn⟩ := exists_nextNumber_object fields s.nextField
  refine ⟨n, hn, ?_⟩
  rw [addSiblingField, owns.get_fields, lift_ok_bind]
  by_cases hnull : after = .null
  · subst hnull
    simp only [ne_eq, not_true_eq_false, if_false, pure_bind, yields_takeName_bind_iff hn, if_true,
      Value.toMembers_object, lift_ok_bind, owns.set_fields, owns.withRequired_refield, grown,
      yields_tell_bind_iff, yields_pure_iff, and_self]
  · obtain ⟨m, hm, hequals⟩ := hafter.resolve_left hnull
    simp only [ne_eq, hnull, not_false_eq_true, if_true, if_false, holds_of_equals hm hequals,
      Bool.not_true, Bool.false_eq_true, yields_takeName_bind_iff hn, pure_bind, Value.members_object,
      lift_ok_bind, owns.set_fields, owns.withRequired_refield, grown, yields_tell_bind_iff,
      yields_pure_iff, and_self]

/-- A field is added at the end, and the fields are opened in the tree view. -/
theorem exists_yields_addChildField (s : Ledger) :
    ∃ n, nextNumber (.object fields) s.nextField = .ok n ∧
      (addChildField doc nodes (owner ++ [.str "properties"])).Yields s
        ⟨some (doc.put owner (.object
            (switched (.str (fieldName n)) true names (refield (grown .null (fieldName n) fields) ms)))),
          OpenNodes.insert (Path.join (owner ++ [.str "properties"])) true nodes, .str (fieldName n)⟩
        ⟨n + 1, s.notices ++ [.addedChild (fieldName n) (owner ++ [.str "properties"])]⟩ := by
  obtain ⟨n, hn⟩ := exists_nextNumber_object fields s.nextField
  have hhas : doc.has (owner ++ [.str "properties"]) = .ok true := by
    rw [Value.has, owns.get_fields]
  refine ⟨n, hn, ?_⟩
  rw [addChildField, List.dropLast_concat, owns.node, lift_ok_bind, hhas, lift_ok_bind, if_pos rfl,
    owns.get_fields]
  simp only [lift_ok_bind, yields_takeName_bind_iff hn, Value.toMembers_object, owns.set_fields,
    owns.withRequired_refield, grown, if_true, yields_tell_bind_iff, yields_pure_iff, and_self]

end Owns

end Draft

namespace Editor

open Fields

/-! ### Operations on a field of the node that a path leads to -/

def renameField (owner : Path) (old new : String) : Operation :=
  .rename (.array (owner ++ [.str "properties"])) (.str old) (.str new)

def switchField (owner : Path) (name : String) (required : Bool) : Operation :=
  .toggleRequired (.array (owner ++ [.str "properties"])) (.str name) (.bool required)

def deleteField (owner : Path) (name : String) : Operation :=
  .deleteField (.array (owner ++ [.str "properties", .str name])) (.bool true)

def addSibling (owner : Path) (after : Value) : Operation :=
  .addSiblingField (.array (owner ++ [.str "properties"])) after

/-- Adds a field at the end, and opens the fields in the tree view. -/
def addChild (owner : Path) : Operation := .addChildField (.array (owner ++ [.str "properties"]))

/-- The operations that add a field to a mapping: at the end, after one of its keys, or as a child. The key is
given by a value that equals it, such as itself unless it is no number. -/
inductive Addition (owner : Path) (fields : Members) : Operation → Prop where
  | last : Addition owner fields (addSibling owner .null)
  | next {k : Scalar} {after : Value} (isKey : k ∈ Members.keys fields)
      (equals : (Value.scalar k).equals after = true) : Addition owner fields (addSibling owner after)
  | child : Addition owner fields (addChild owner)

variable {editor : Editor} {owner : Path} {ms fields : Members} {names : List Value}

theorem perform_switchField (hnode : editor.document.get owner = .ok (.object ms))
    (hnames : Requires ms names) (name : String) (required : Bool) :
    (editor.perform (switchField owner name required)).reply = .ok .null ∧
      (editor.perform (switchField owner name required)).editor.document =
        editor.document.put owner (.object (switched (.str name) required names ms)) := by
  have hyields := Draft.yields_toggleRequired editor.openNodes hnode hnames (.str name) required
    ⟨editor.nextField, []⟩
  rw [perform_of_yields editor (switchField owner name required) hyields]
  refine ⟨rfl, ?_⟩
  by_cases h : (Value.str name).occurs names = required
  · simp only [make, if_pos h, Option.getD_none, switched, Value.put_self hnode]
  · simp only [make, if_neg h, Option.getD_some]

/-- What adding a field makes of an editor: the field has a name that was free, and is required. -/
structure Adds (editor : Editor) (o : Outcome) (owner : Path) (ms fields : Members) (names : List Value)
    (after : Value) (name : String) : Prop where
  free : Members.has (.str name) fields = false
  place : after = .null ∨ ∃ m ∈ fields, (Value.scalar m.1).equals after = true
  reply : o.reply = .ok (.str name)
  document : o.editor.document = editor.document.put owner
    (.object (switched (.str name) true names (refield (grown after name fields) ms)))

section Owns

variable (owns : Owns editor.document owner ms fields names)

include owns

theorem perform_deleteField {name : String} (hname : Members.has (.str name) fields = true) :
    (editor.perform (deleteField owner name)).reply = .ok .null ∧
      (editor.perform (deleteField owner name)).editor.document = editor.document.put owner
        (.object (switched (.str name) false names (refield (Members.erase (.str name) fields) ms))) := by
  rw [perform_of_yields editor (deleteField owner name)
    (Draft.yields_deleteField editor.openNodes owns hname ⟨editor.nextField, []⟩)]
  exact ⟨rfl, rfl⟩

theorem exists_adds_addSibling {after : Value}
    (place : after = .null ∨ ∃ m ∈ fields, (Value.scalar m.1).equals after = true) :
    ∃ name, Adds editor (editor.perform (addSibling owner after)) owner ms fields names after name := by
  obtain ⟨n, hn, hyields⟩ := Draft.exists_yields_addSiblingField editor.openNodes owns place
    ⟨editor.nextField, []⟩
  rw [perform_of_yields editor (addSibling owner after) hyields]
  exact ⟨fieldName n, (has_nextNumber hn).2, place, rfl, rfl⟩

theorem exists_adds_addChild :
    ∃ name, Adds editor (editor.perform (addChild owner)) owner ms fields names .null name := by
  obtain ⟨n, hn, hyields⟩ := Draft.exists_yields_addChildField editor.openNodes owns ⟨editor.nextField, []⟩
  rw [perform_of_yields editor (addChild owner) hyields]
  exact ⟨fieldName n, (has_nextNumber hn).2, .inl rfl, rfl, rfl⟩

theorem exists_adds {operation : Operation} (addition : Addition owner fields operation) :
    ∃ after name, Adds editor (editor.perform operation) owner ms fields names after name := by
  cases addition with
  | last => exact ⟨.null, exists_adds_addSibling owns (.inl rfl)⟩
  | @next k after isKey equals =>
      obtain ⟨m, hm, rfl⟩ := List.mem_map.mp isKey
      exact ⟨after, exists_adds_addSibling owns (.inr ⟨m, hm, equals⟩)⟩
  | child => exact ⟨.null, exists_adds_addChild owns⟩

end Owns

end Editor

end SchemaForge
