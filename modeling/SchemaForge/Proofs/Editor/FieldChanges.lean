import SchemaForge.Proofs.Editor.FieldEdits
import SchemaForge.Proofs.Editor.FreshNames
import SchemaForge.Proofs.Path.Separation

/-!
What all edits of fields have in common, whatever a node lists as required and whatever its names are. An edit is
about a few names: it adds, removes or renames the fields with these, and leaves the other fields with their
values and in their order. What it brings into the fields and the required names is known from the operation and
its reply. The document gets the node back, and with it all the rest.
-/

namespace SchemaForge

namespace Members

/-! ### Some of the keys -/

section Choice

variable {P : Scalar → Bool} (hP : ∀ k l : Scalar, k.same l = true → P k = P l)

include hP

theorem find?_filter {k : Scalar} (hk : P k = true) (ms : Members) :
    find? k (ms.filter (P ·.1)) = find? k ms := by
  induction ms with
  | nil => rfl
  | cons m ms ih =>
      obtain ⟨l, v⟩ := m
      by_cases hlk : l.same k = true
      · have hl : P l = true := (hP l k hlk).trans hk
        simp [find?, hlk, hl]
      · cases hl : P l <;> simp [find?, hlk, hl, ih]

theorem filter_insert (k : Scalar) (v : Value) (ms : Members) :
    (insert k v ms).filter (P ·.1) =
      if P k then insert k v (ms.filter (P ·.1)) else ms.filter (P ·.1) := by
  induction ms with
  | nil => cases hk : P k <;> simp [insert, hk]
  | cons m ms ih =>
      obtain ⟨l, w⟩ := m
      by_cases hlk : l.same k = true
      · have hl : P l = P k := hP l k hlk
        cases hk : P k <;> simp [insert, hlk, hl, hk]
      · cases hk : P k <;> cases hl : P l <;> simp_all [insert]

/-- Members that are written one after the other may be chosen before they are written. -/
theorem filter_ofPairs (ps : List (Scalar × Value)) :
    (ofPairs ps).filter (P ·.1) = ofPairs (ps.filter (P ·.1)) := by
  induction ps using List.reverseRecOn with
  | nil => rfl
  | append_singleton ps p ih =>
      have hlast : ∀ qs : List (Scalar × Value), ofPairs (qs ++ [p]) = insert p.1 p.2 (ofPairs qs) :=
        fun qs => by rw [ofPairs, List.foldl_append]; rfl
      rw [hlast, filter_insert hP, ih, List.filter_append]
      cases hp : P p.1 with
      | false => simp [hp]
      | true => simp [hp, hlast]

end Choice

/-- What is found among members that were written one after the other was written at that key. -/
theorem exists_pair_of_find?_ofPairs {ps : List (Scalar × Value)} {k : Scalar} {v : Value}
    (h : find? k (ofPairs ps) = some v) : ∃ p ∈ ps, p.1.same k = true ∧ p.2 = v := by
  induction ps using List.reverseRecOn with
  | nil => cases h
  | append_singleton ps p ih =>
      rw [ofPairs, List.foldl_append, ← ofPairs, List.foldl_cons, List.foldl_nil] at h
      cases hpk : p.1.same k with
      | true =>
          rw [← find?_congr hpk, find?_insert_self] at h
          exact ⟨p, by simp, hpk, Option.some.inj h⟩
      | false =>
          rw [find?_insert_of_not_same hpk] at h
          obtain ⟨q, hq, hqk, hv⟩ := ih h
          exact ⟨q, by simp [hq], hqk, hv⟩

end Members

namespace Fields

/-! ### Fields with some names -/

/-- Whether a key stands for none of some names. -/
def unnamed (names : List Value) (k : Scalar) : Bool := !(Value.scalar k).occurs names

section Unnamed

variable {names : List Value} {k : Scalar}

theorem unnamed_iff : unnamed names k = true ↔ ∀ l : Scalar, .scalar l ∈ names → l.same k = false := by
  simp only [unnamed, Value.occurs, Bool.not_eq_true', List.any_eq_false]
  constructor
  · exact fun h l hl => Bool.eq_false_iff.mpr (h _ hl)
  · intro h v hv
    cases v with
    | scalar l => simpa [Value.same] using h l hv
    | _ => simp [Value.same]

theorem unnamed_congr {l : Scalar} (h : k.same l = true) : unnamed names k = unnamed names l := by
  have hsame : ∀ m : Scalar, m.same k = m.same l := fun m => by
    simp only [Scalar.same, decide_eq_true_eq] at h ⊢
    rw [h]
  rw [Bool.eq_iff_iff, unnamed_iff, unnamed_iff]
  simp only [hsame]

end Unnamed

/-- The fields after an edit that is about some names: the others have their values and their order. What is
found among the fields was found there, or it takes a place where nothing but null was; then it was brought in,
or it comes from one of the names. -/
structure FieldsEdited (names brought : List Value) (fields others : Members) : Prop where
  rest : others.filter (unnamed names ·.1) = fields.filter (unnamed names ·.1)
  found : ∀ k v, Members.find? k others = some v → Members.find? k fields = some v ∨
    ((Members.find? k fields).getD .null = .null ∧
      (v ∈ brought ∨ ∃ l, .scalar l ∈ names ∧ Members.find? l fields = some v))

section Edited

variable {names brought : List Value} {fields others : Members}

theorem fieldsEdited_self : FieldsEdited names brought fields fields := ⟨rfl, fun _ _ => .inl⟩

theorem FieldsEdited.find? (h : FieldsEdited names brought fields others) {k : Scalar}
    (hk : unnamed names k = true) : Members.find? k others = Members.find? k fields := by
  rw [← Members.find?_filter (fun _ _ => unnamed_congr) hk, h.rest,
    Members.find?_filter (fun _ _ => unnamed_congr) hk]

/-- An edit about no names leaves all fields. -/
theorem FieldsEdited.eq_self (h : FieldsEdited [] brought fields others) : others = fields := by
  simpa [unnamed] using h.rest

variable (distinct : fields.Distinct)

include distinct

/-- A field that is removed leaves the others. -/
theorem fieldsEdited_filter {k : Scalar} {P : Scalar → Bool}
    (hP : ∀ l : Scalar, P l = false → l.same k = true) :
    FieldsEdited [.scalar k] brought fields (fields.filter (P ·.1)) where
  rest := by
    rw [List.filter_filter]
    refine List.filter_congr fun m _ => ?_
    cases hm : P m.1 with
    | true => simp
    | false => simp [unnamed, Value.occurs, Value.same, Scalar.same_comm k, hP m.1 hm]
  found := fun l v hv => by
    obtain ⟨m, hm, hml⟩ := Members.exists_mem_of_find? hv
    exact .inl (distinct.find? (List.mem_of_mem_filter hm) hml)

theorem fieldsEdited_grown {after : Value} {name : String}
    (free : Members.has (.str name) fields = false) :
    FieldsEdited [.str name] [.str name, Schema.stringNode] fields (grown after name fields) where
  rest := by
    have herase : ∀ ms : Members, ms.filter (unnamed [.str name] ·.1) = Members.erase (.str name) ms := by
      intro ms
      refine List.filter_congr fun m _ => ?_
      simp [unnamed, Value.occurs, Value.same, Scalar.same_comm (.str name)]
    rw [herase, herase, erase_grown free, Members.erase_of_not_has free]
  found := fun l v hv => by
    obtain ⟨m, hm, hml⟩ := Members.exists_mem_of_find? hv
    have hmem : (m, v) = (.str name, Schema.stringNode) ∨ (m, v) ∈ fields := by
      unfold grown at hm
      split at hm
      · rw [Members.insert_of_not_has free] at hm
        simpa [or_comm] using hm
      · exact mem_insertAfter hm
    rcases hmem with heq | hmem
    · cases heq
      refine .inr ⟨?_, .inl (by simp)⟩
      rw [← Members.find?_congr hml, Option.not_isSome_iff_eq_none.mp (Bool.eq_false_iff.mp free)]
      rfl
    · exact .inl (distinct.find? hmem hml)

/-- The fields that are unnamed after a renaming are those that were before: the field that goes has the new name,
and the one that is renamed has the old name and gets the new one. -/
theorem filter_unnamed_renameKey {old new : Scalar} :
    (renameKey (.scalar old) new fields).filter (unnamed [.scalar old, .scalar new] ·.1) =
      fields.filter (unnamed [.scalar old, .scalar new] ·.1) := by
  have hequals : ∀ {k l : Scalar}, unnamed [.scalar old, .scalar new] k = true →
      .scalar l ∈ [Value.scalar old, .scalar new] → (Value.scalar k).equals (.scalar l) = false := by
    intro k l hk hl
    rw [← Bool.not_eq_true]
    intro hequals
    have hsame := unnamed_iff.mp hk l hl
    rw [Scalar.same_comm, same_of_equals hequals] at hsame
    cases hsame
  have hnew : unnamed [.scalar old, .scalar new] new = false := by
    rw [← Bool.not_eq_true, unnamed_iff]
    exact fun h => by simpa using h new (by simp)
  have hkept : ∀ m ∈ fields, (unnamed [.scalar old, .scalar new]
      (if (Value.scalar m.1).equals (.scalar old) then new else m.1) &&
        !(Value.scalar m.1).equals (.scalar new)) = unnamed [.scalar old, .scalar new] m.1 := by
    intro m _
    cases hm : unnamed [.scalar old, .scalar new] m.1 with
    | true => simp [hequals hm, hm]
    | false => cases hold : (Value.scalar m.1).equals (.scalar old) <;> simp [hm, hnew]
  rw [renameKey, Members.filter_ofPairs fun _ _ => unnamed_congr, List.filter_map, List.filter_filter]
  simp only [Function.comp_apply]
  rw [List.filter_congr hkept, map_eq_self_iff.mpr fun m hm => ?_,
    Members.ofPairs_of_distinct (distinct.sublist List.filter_sublist)]
  rw [hequals (List.mem_filter.mp hm).2 (by simp)]
  rfl

/-- A field that is renamed stands in its place under the new name, whatever the names are. -/
theorem fieldsEdited_renameKey (old : Scalar) {new : Scalar}
    (free : (Members.find? new fields).getD .null = .null) :
    FieldsEdited [.scalar old, .scalar new] [.scalar new] fields (renameKey (.scalar old) new fields) where
  rest := filter_unnamed_renameKey distinct
  found := fun l v hv => by
    obtain ⟨p, hp, hpl, rfl⟩ := Members.exists_pair_of_find?_ofPairs hv
    obtain ⟨m, hm, rfl⟩ := List.mem_map.mp hp
    have hm := List.mem_of_mem_filter hm
    dsimp only at hpl ⊢
    split at hpl
    · next hold =>
        have hnode := distinct.find? hm (same_of_equals hold)
        exact .inr ⟨by rwa [← Members.find?_congr hpl], .inr ⟨old, by simp, hnode⟩⟩
    · exact .inl (distinct.find? hm hpl)

end Edited

theorem Relists.mono {ms ns : Members} {fresh fresh' : List Value} (h : Relists ms fresh ns)
    (hfresh : ∀ n ∈ fresh, n ∈ fresh') : Relists ms fresh' ns := by
  cases h with
  | same => exact .same
  | dropped => exact .dropped
  | given places => exact .given (places.mono hfresh)

/-- A document in which the node that owns some fields was put back with other fields and other required names. -/
def NodeEdited (doc : Value) (owner : Path) (ms fields : Members) (names brought : List Value)
    (d : Value) : Prop :=
  ∃ others ns, FieldsEdited names brought fields others ∧ Relists (refield others ms) brought ns ∧
    d = doc.put owner (.object ns)

section Node

variable {doc d : Value} {owner : Path} {ms fields others : Members} {names brought : List Value}
  (node : doc.get owner = .ok (.object ms))

include node

theorem nodeEdited_self (isFields : Members.find? (.str "properties") ms = some (.object fields)) :
    NodeEdited doc owner ms fields names brought doc :=
  ⟨fields, ms, fieldsEdited_self, by rw [refield_self isFields]; exact .same, (Value.put_self node).symm⟩

/-- First the fields are edited, and then the required names of the node that is there. -/
theorem nodeEdited_put {ns ns' : Members} (edited : FieldsEdited names brought fields others)
    (after : (doc.put owner (.object (refield others ms))).get owner = .ok (.object ns))
    (relists : Relists ns brought ns') :
    NodeEdited doc owner ms fields names brought
      ((doc.put owner (.object (refield others ms))).put owner (.object ns')) := by
  cases (Value.get_put node _).symm.trans after
  exact ⟨others, ns', edited, relists, Value.put_put node _ _⟩

theorem nodeEdited_withRequired {name : Value} {required : Bool}
    (edited : FieldsEdited names brought fields others)
    (hbrought : ∀ n ∈ (if required then [name] else []), n ∈ brought)
    (h : withRequired (doc.put owner (.object (refield others ms))) (owner ++ [.str "properties"]) name
      required = .ok d) : NodeEdited doc owner ms fields names brought d := by
  obtain ⟨ns, ns', hget, rfl, relists⟩ := exists_of_withRequired h
  rw [List.dropLast_concat] at hget ⊢
  exact nodeEdited_put node edited hget (relists.mono hbrought)

end Node

end Fields

namespace Editor

open Fields

/-- The operations on the fields of the node at `owner`, with the reply that they give: the names of the fields
that they add, remove or rename, and what they bring into the fields and the required names. -/
inductive FieldEdit (owner : Path) : Operation → (reply : Value) → (names brought : List Value) → Prop where
  | rename {path old new reply : Value} (isPath : path.elements = .ok (owner ++ [.str "properties"])) :
      FieldEdit owner (.rename path old new) reply [old, new] [new]
  | toggleRequired {path name required reply : Value}
      (isPath : path.elements = .ok (owner ++ [.str "properties"])) :
      FieldEdit owner (.toggleRequired path name required) reply [] (if required.truthy then [name] else [])
  | deleteField {path name prune reply : Value}
      (isPath : path.elements = .ok (owner ++ [.str "properties", name])) (prunes : prune.truthy = true) :
      FieldEdit owner (.deleteField path prune) reply [name] []
  | addSiblingField {path after reply : Value}
      (isPath : path.elements = .ok (owner ++ [.str "properties"])) :
      FieldEdit owner (.addSiblingField path after) reply [reply] [reply, Schema.stringNode]
  | addChildField {path reply : Value} (isPath : path.elements = .ok (owner ++ [.str "properties"])) :
      FieldEdit owner (.addChildField path) reply [reply] [reply, Schema.stringNode]

section Edits

variable {editor : Editor} {owner : Path} {ms fields : Members}
  (node : editor.document.get owner = .ok (.object ms))
  (isFields : Members.find? (.str "properties") ms = some (.object fields)) (distinct : fields.Distinct)

include node isFields

theorem get_fields : editor.document.get (owner ++ [.str "properties"]) = .ok (.object fields) :=
  (Value.get_snoc_object node _).mpr isFields

include distinct

theorem nodeEdited_rename {s t : Ledger} {change : Change} {d old new : Value}
    (h : (Draft.rename editor.document editor.openNodes (owner ++ [.str "properties"]) old new).Yields s
      change t) (hd : change.document = some d) :
    NodeEdited editor.document owner ms fields [old, new] [new] d := by
  obtain ⟨props, hprops, rfl | ⟨os, oldKey, newKey, _, moved, named, hos, hold, hnew, hfree, -, hmoved, hnamed,
    -, rfl⟩⟩ := Draft.exists_of_rename h
  · cases hd
  · cases hd
    cases (get_fields node isFields).symm.trans hprops
    cases hos
    cases old with
    | scalar k =>
        cases hold
        cases new with
        | scalar l =>
            cases hnew
            rw [Value.set_snoc_object node] at hmoved
            cases hmoved
            have edited := fieldsEdited_renameKey distinct oldKey hfree
            obtain rfl | ⟨ns, ns', hget, rfl, relists⟩ := exists_of_renameRequired hnamed
            · exact ⟨_, _, edited, .same, rfl⟩
            · rw [List.dropLast_concat] at hget ⊢
              exact nodeEdited_put node edited hget relists
        | _ => cases hnew
    | _ => cases hold

omit distinct in
theorem nodeEdited_toggleRequired {s t : Ledger} {change : Change} {d name : Value} {required : Bool}
    (h : (Draft.toggleRequired editor.document editor.openNodes (owner ++ [.str "properties"]) name
      required).Yields s change t) (hd : change.document = some d) :
    NodeEdited editor.document owner ms fields [] (if required then [name] else []) d := by
  obtain ⟨o, ho, rfl⟩ := Draft.exists_of_toggleRequired h
  have hself : editor.document.put owner (.object (refield fields ms)) = editor.document := by
    rw [refield_self isFields, Value.put_self node]
  have hwith : withRequired (editor.document.put owner (.object (refield fields ms)))
      (owner ++ [.str "properties"]) name required = .ok d := by
    rw [hself, withRequired, ho]
    exact congrArg Except.ok (Option.getD_eq_iff.mpr (.inl hd))
  exact nodeEdited_withRequired node fieldsEdited_self (fun _ => id) hwith

theorem nodeEdited_deleteField {s t : Ledger} {change : Change} {d name : Value}
    (h : (Draft.deleteField editor.document editor.openNodes (owner ++ [.str "properties", name])
      true).Yields s change t) (hd : change.document = some d) :
    NodeEdited editor.document owner ms fields [name] [] d := by
  obtain ⟨field, removed, pruned, hfield, hremoved, hpruned, rfl⟩ := Draft.exists_of_deleteField h
  cases hd
  rw [show owner ++ [.str "properties", name] = (owner ++ [.str "properties"]) ++ [name] by simp]
    at hfield hremoved
  obtain ⟨props, hprops, hchild⟩ := Value.get_snoc_eq_ok_iff.mp hfield
  cases (get_fields node isFields).symm.trans hprops
  obtain ⟨k, rfl, -⟩ := Value.exists_of_child_object hchild
  rw [Value.remove_snoc_object (get_fields node isFields), Value.put_snoc_object node isFields] at hremoved
  cases hremoved
  have edited : FieldsEdited [.scalar k] [] fields
      (fields.filter fun m => !(Value.scalar m.1).equals (.scalar k)) := by
    refine fieldsEdited_filter (P := fun l => !(Value.scalar l).equals (.scalar k)) distinct fun l hl => ?_
    exact same_of_equals (by simpa using hl)
  exact nodeEdited_withRequired node edited (by simp) hpruned

/-- A new field is added to the fields, and its name to the required ones. -/
theorem nodeEdited_addition {operation : Operation} {path after reply : Value}
    (hadds : operation.addition = some (path, after))
    (hpath : path.elements = .ok (owner ++ [.str "properties"]))
    (hreply : (editor.perform operation).reply = .ok reply) :
    NodeEdited editor.document owner ms fields [reply] [reply, Schema.stringNode]
      (editor.perform operation).editor.document := by
  obtain ⟨p, props, n, others, added, d, hp, hprops, -, hn, hothers, hadded, hd, rfl, hdocument, -⟩ :=
    exists_of_addition hadds hreply
  cases hpath.symm.trans hp
  have hget := get_fields node isFields
  obtain rfl : props = .object fields := by
    rcases hprops with hprops | hprops
    · exact Except.ok.inj (hprops.symm.trans hget)
    · simp [Value.has, hget] at hprops
  obtain rfl : others = grown after (fieldName n) fields := by
    unfold Draft.withField at hothers
    unfold grown
    split at hothers <;> cases hothers <;> simp [*]
  rw [Value.set_snoc_object node] at hadded
  cases hadded
  rw [hdocument]
  exact nodeEdited_withRequired node (fieldsEdited_grown distinct (has_nextNumber hn).2) (by simp) hd

/-- What all field edits come to: the node gets other fields, which differ in those that the edit is about, and
other required names. An edit may also change nothing. -/
theorem FieldEdit.nodeEdited {operation : Operation} {reply : Value} {names brought : List Value}
    (edit : FieldEdit owner operation reply names brought)
    (hreply : (editor.perform operation).reply = .ok reply) :
    NodeEdited editor.document owner ms fields names brought (editor.perform operation).editor.document := by
  have self : ∀ names brought, NodeEdited editor.document owner ms fields names brought editor.document :=
    fun _ _ => nodeEdited_self node isFields
  cases edit with
  | addSiblingField isPath => exact nodeEdited_addition node isFields distinct rfl isPath hreply
  | addChildField isPath => exact nodeEdited_addition node isFields distinct rfl isPath hreply
  | rename isPath =>
      refine document_perform (self _ _) fun h hd => ?_
      rw [Operation.draft, isPath, Draft.lift_ok_bind] at h
      exact nodeEdited_rename node isFields distinct h hd
  | toggleRequired isPath =>
      refine document_perform (self _ _) fun h hd => ?_
      rw [Operation.draft, isPath, Draft.lift_ok_bind] at h
      exact nodeEdited_toggleRequired node isFields h hd
  | deleteField isPath prunes =>
      refine document_perform (self _ _) fun h hd => ?_
      rw [Operation.draft, isPath, Draft.lift_ok_bind, prunes] at h
      exact nodeEdited_deleteField node isFields distinct h hd

end Edits

end Editor

end SchemaForge
