import SchemaForge.Proofs.Editor.FieldChanges
import SchemaForge.Proofs.Editor.Renaming

/-!
Edits of fields are local. Whatever a path finds or fails to find that diverges from the required names of the
node and from the fields that an edit is about, it finds or fails to find afterwards; and all objects keep their
keys in order, but for the names of the edit. Among the required names, which may hold anything, and in the place
of a field that takes another name, an object may move; it does so as it is.
-/

namespace SchemaForge

theorem Value.get_scalar_ne_object (k : Scalar) (q : Path) (os : Members) :
    (Value.scalar k).get q ≠ .ok (.object os) := by
  cases q <;> intro h <;> cases h

namespace Fields

open Value (Diverge Within getFrom)

/-- Where an edit of fields with some names may change a node: its list of required names and these fields. -/
def editedBelow (names : List Value) : List Path :=
  [.str "required"] :: names.map fun n => [.str "properties", n]

/-- Where an edit of fields with some names may change the document that has the node at `owner`. -/
def editedPlaces (owner : Path) (names : List Value) : List Path :=
  (editedBelow names).map (owner ++ ·)

/-- The keys of an object that are none of some names come in another one in the same order, as far as they are
there. -/
def KeepsOrder (names : List Value) (ms ns : Members) : Prop :=
  ((Members.keys ms).filter fun k => unnamed names k && Members.has k ns).Sublist (Members.keys ns)

theorem keepsOrder_of_keys_sublist {names : List Value} {ms ns : Members}
    (h : (Members.keys ms).Sublist (Members.keys ns)) : KeepsOrder names ms ns :=
  List.filter_sublist.trans h

/-! ### The fields -/

section Edited

variable {names brought : List Value} {fields others : Members} (edited : FieldsEdited names brought fields others)

include edited

theorem FieldsEdited.keepsOrder : KeepsOrder names fields others := by
  have hunnamed : ((Members.keys fields).filter (unnamed names)).Sublist (Members.keys others) := by
    rw [← Members.keys_filter, ← edited.rest, Members.keys_filter]
    exact List.filter_sublist
  refine List.Sublist.trans ?_ hunnamed
  exact List.monotone_filter_right _ fun k hk => (Bool.and_eq_true_iff.mp hk).1

/-- What is apart from the edited fields is found as before. -/
theorem FieldsEdited.getFrom_eq {q : Path} (apart : ∀ n ∈ names, Diverge (.object fields) [n] q)
    (whole : Path) (depth : Nat) :
    getFrom whole depth (.object others) q = getFrom whole depth (.object fields) q := by
  cases names with
  | nil => rw [edited.eq_self]
  | cons n names =>
      cases q with
      | nil => cases apart n List.mem_cons_self
      | cons s q =>
          have hchild : (Value.object others).child s = (Value.object fields).child s := by
            cases s with
            | scalar k =>
                have hk : unnamed (n :: names) k = true := by
                  refine unnamed_iff.mpr fun l hl => Bool.eq_false_iff.mpr fun hsame => ?_
                  cases apart _ hl with
                  | here _ _ apart => exact apart (Value.place_object_eq_iff.mpr hsame)
                  | deeper _ _ diverge => cases diverge
                rw [Value.child_object, Value.child_object, edited.find? hk]
            | _ => rfl
          simp only [getFrom, Value.childAt, hchild]

/-- An object that is found below the fields, before and after, keeps its keys in order. -/
theorem FieldsEdited.keepsOrder_of_get {q : Path} {ms ns : Members}
    (hms : (Value.object fields).get q = .ok (.object ms))
    (hns : (Value.object others).get q = .ok (.object ns)) : KeepsOrder names ms ns := by
  cases q with
  | nil =>
      cases hms
      cases hns
      exact edited.keepsOrder
  | cons s q =>
      obtain ⟨v, hchild, hbefore⟩ := Value.get_cons_eq_ok_iff.mp hms
      obtain ⟨k, rfl, hv⟩ := Value.exists_of_child_object hchild
      obtain ⟨w, hw, hafter⟩ := Value.get_key_eq_ok_iff.mp hns
      rcases edited.found k w hw with hsame | ⟨hfree, -⟩
      · cases hv.symm.trans hsame
        cases hbefore.symm.trans hafter
        exact keepsOrder_of_keys_sublist (List.Sublist.refl _)
      · -- There is no object below null.
        rw [hv, Option.getD_some] at hfree
        subst hfree
        exact absurd hbefore (Value.get_scalar_ne_object _ q ms)

end Edited

/-! ### The node -/

section Node

variable {names brought : List Value} {ms fields others ns : Members}
  (isFields : Members.find? (.str "properties") ms = some (.object fields))
  (edited : FieldsEdited names brought fields others) (relists : Relists (refield others ms) brought ns)

theorem find?_refield_of_ne {k : Scalar} (hk : k ≠ .str "properties") :
    Members.find? k (refield others ms) = Members.find? k ms :=
  Members.find?_insert_of_not_same (Scalar.str_same_eq_false_of_ne hk) _ ms

include relists

theorem find?_properties_of_relists : Members.find? (.str "properties") ns = some (.object others) := by
  rw [relists.find? (by decide), find?_refield]

theorem find?_of_relists {k : Scalar} (hproperties : k ≠ .str "properties") (hrequired : k ≠ .str "required") :
    Members.find? k ns = Members.find? k ms := by
  rw [relists.find? hrequired, find?_refield_of_ne hproperties]

include isFields

/-- The node loses at most its list of required names, or gets one at its end. -/
theorem keepsOrder_of_relists : KeepsOrder names ms ns := by
  have hhas : Members.has (.str "properties") ms = true := by rw [Members.has, isFields]; rfl
  have hkeys : Members.keys (refield others ms) = Members.keys ms := Members.keys_insert_of_has hhas
  rw [KeepsOrder, ← hkeys]
  cases relists with
  | same => exact List.filter_sublist
  | given among => exact List.filter_sublist.trans (Members.keys_prefix_insert _ _ _).sublist
  | dropped =>
      rw [Members.keys_erase]
      refine List.monotone_filter_right _ fun k hk => ?_
      have hkept : Members.has k (Members.erase (.str "required") (refield others ms)) = true :=
        (Bool.and_eq_true_iff.mp hk).2
      by_contra hsame
      rw [Bool.not_eq_true, Bool.not_eq_false'] at hsame
      rw [Members.has, Members.find?_congr hsame, Members.find?_erase_self] at hkept
      cases hkept

include edited

theorem getFrom_of_relists {q : Path} (apart : ∀ t ∈ editedBelow names, Diverge (.object ms) t q)
    (whole : Path) (depth : Nat) :
    getFrom whole depth (.object ns) q = getFrom whole depth (.object ms) q := by
  obtain ⟨hlist, hfields⟩ := List.forall_mem_cons.mp apart
  cases hlist with
  | deeper _ _ diverge => cases diverge
  | @here _ _ s _ q hrequired =>
      cases s with
      | scalar k =>
          have hk : k ≠ .str "required" := by
            rintro rfl
            exact hrequired rfl
          by_cases hproperties : k = .str "properties"
          · subst hproperties
            simp only [getFrom, Value.childAt, Value.child_object, ok_bind, isFields,
              find?_properties_of_relists relists, pure_eq_ok]
            refine edited.getFrom_eq (fun n hn => ?_) whole (depth + 1)
            cases hfields _ (List.mem_map_of_mem hn) with
            | here _ _ apart => exact absurd rfl apart
            | deeper _ child diverge =>
                rw [Value.child_object, isFields] at child
                cases child
                exact diverge
          · simp only [getFrom, Value.childAt, Value.child_object, find?_of_relists relists hproperties hk]
      | _ => rfl

/-- Beside the list of required names that the node has then, an object that is found below the node keeps its keys
in order. -/
theorem keepsOrder_of_get {q : Path} {os ps : Members} (hos : (Value.object ms).get q = .ok (.object os))
    (hps : (Value.object ns).get q = .ok (.object ps))
    (outside : Within (.object ms) [.str "required"] q → ∀ ys, Members.find? (.str "required") ns ≠ some (.array ys)) :
    KeepsOrder names os ps := by
  cases q with
  | nil =>
      cases hos
      cases hps
      exact keepsOrder_of_relists isFields relists
  | cons s q =>
      obtain ⟨v, hchild, hbefore⟩ := Value.get_cons_eq_ok_iff.mp hos
      obtain ⟨k, rfl, hv⟩ := Value.exists_of_child_object hchild
      obtain ⟨w, hw, hafter⟩ := Value.get_key_eq_ok_iff.mp hps
      have hkept : v = w → KeepsOrder names os ps := by
        rintro rfl
        cases hbefore.symm.trans hafter
        exact keepsOrder_of_keys_sublist (List.Sublist.refl _)
      by_cases hrequired : k = .str "required"
      · subst hrequired
        cases relists with
        | same => exact hkept (Option.some.inj (hv.symm.trans ((find?_refield_of_ne (by decide)).symm.trans hw)))
        | dropped =>
            rw [Members.find?_erase_self] at hw
            cases hw
        | given _ => exact absurd (Members.find?_insert_self _ _ _) (outside (.deeper rfl hchild (.here _ _)) _)
      · by_cases hproperties : k = .str "properties"
        · subst hproperties
          cases isFields.symm.trans hv
          cases (find?_properties_of_relists relists).symm.trans hw
          exact edited.keepsOrder_of_get hbefore hafter
        · rw [find?_of_relists relists hproperties hrequired] at hw
          exact hkept (Option.some.inj (hv.symm.trans hw))

end Node

/-! ### What moves -/

theorem listedNames_refield (others ms : Members) : listedNames (refield others ms) = listedNames ms := by
  rw [listedNames, find?_refield_of_ne (by decide), listedNames]

section Moved

variable {names brought : List Value} {ms fields others ns os : Members} {q : Path}

/-- The required names that a node lists afterwards. -/
theorem keepsPlaces_of_relists {ys : List Value} (relists : Relists (refield others ms) brought ns)
    (hys : Members.find? (.str "required") ns = some (.array ys)) : KeepsPlaces (listedNames ms) brought ys := by
  rw [← listedNames_refield others ms]
  cases relists with
  | same =>
      rw [listedNames_eq hys (Value.elements_array ys)]
      exact keepsPlaces_self ys brought
  | dropped =>
      rw [Members.find?_erase_self] at hys
      cases hys
  | given places =>
      rw [Members.find?_insert_self] at hys
      cases hys
      exact places

/-- An object below a field of the edit stood there before, or below a field that was renamed, or was brought
there. -/
theorem FieldsEdited.moved (edited : FieldsEdited names brought fields others) {n : Value}
    (hn : n ∈ names) (hos : (Value.object others).get (n :: q) = .ok (.object os)) :
    (∃ m ∈ names, (Value.object fields).get (m :: q) = .ok (.object os)) ∨
      ∃ v ∈ brought, v.get q = .ok (.object os) := by
  obtain ⟨w, hchild, hbelow⟩ := Value.get_cons_eq_ok_iff.mp hos
  obtain ⟨k, rfl, hw⟩ := Value.exists_of_child_object hchild
  rcases edited.found k w hw with hkept | ⟨-, hbrought | ⟨l, hl, hmoved⟩⟩
  · exact .inl ⟨_, hn, Value.get_key_eq_ok_iff.mpr ⟨w, hkept, hbelow⟩⟩
  · exact .inr ⟨w, hbrought, hbelow⟩
  · exact .inl ⟨_, hl, Value.get_key_eq_ok_iff.mpr ⟨w, hmoved, hbelow⟩⟩

end Moved

/-! ### The document -/

/-- The order of keys that is kept in every object below a place is kept in the whole document. -/
theorem keepsOrder_put {names : List Value} {t : Path} {c e : Value} {allowed : Prop}
    (below : ∀ {q ms ns}, c.get q = .ok (.object ms) → e.get q = .ok (.object ns) →
      (Within c t q → allowed) → KeepsOrder names ms ns) :
    ∀ {p : Path} {doc : Value}, doc.get p = .ok c → ∀ {r : Path} {ms ns : Members},
      doc.get r = .ok (.object ms) → (doc.put p e).get r = .ok (.object ns) →
        (Within doc (p ++ t) r → allowed) → KeepsOrder names ms ns := by
  intro p
  induction p with
  | nil =>
      intro doc hget r ms ns hms hns outside
      cases hget
      rw [Value.put_nil] at hns
      exact below hms hns outside
  | cons s p ih =>
      intro doc hget r ms ns hms hns outside
      obtain ⟨a, ha, hget⟩ := Value.get_cons_eq_ok_iff.mp hget
      rw [Value.put_cons ha] at hns
      cases r with
      | nil =>
          cases hms
          obtain ⟨_, k, heq, rfl, -⟩ | ⟨_, _, _, heq, -⟩ := Value.exists_of_child ha
          · cases heq
            cases hns
            exact keepsOrder_of_keys_sublist (Members.keys_prefix_insert _ _ _).sublist
          · cases heq
      | cons u r =>
          obtain ⟨b, hb, hms⟩ := Value.get_cons_eq_ok_iff.mp hms
          obtain ⟨b', hb', hns⟩ := Value.get_cons_eq_ok_iff.mp hns
          by_cases hplace : doc.place s = doc.place u
          · cases hb.symm.trans (Value.child_of_place_eq hplace ha)
            cases hb'.symm.trans (Value.child_setChild_of_place_eq hplace ha _)
            exact ih hget hms hns fun within => outside (.deeper hplace ha within)
          · rw [Value.child_setChild_of_place_ne hplace ha] at hb'
            cases hb.symm.trans hb'
            cases hms.symm.trans hns
            exact keepsOrder_of_keys_sublist (List.Sublist.refl _)

/-- The document `d` differs from `doc` in what an edit of fields is about: `names` are those of the fields of the
node at `owner` that it adds, removes or renames, and `brought` is what it brings in. A path through the list of
required names may lead to another object than before, since the later elements move up when one goes; the list says
which. Below a field of the edit stands what was there, or below a field that was renamed, or what was brought in. -/
structure EditedLocally (doc : Value) (owner : Path) (names brought : List Value) (d : Value) : Prop where
  apart : ∀ r, (∀ p ∈ editedPlaces owner names, Diverge doc p r) → d.get r = doc.get r
  order : ∀ r ms ns, doc.get r = .ok (.object ms) → d.get r = .ok (.object ns) →
    (Within doc (owner ++ [.str "required"]) r → ∀ ys, d.get (owner ++ [.str "required"]) ≠ .ok (.array ys)) →
      KeepsOrder names ms ns
  list : ∀ ms ys, doc.get owner = .ok (.object ms) → d.get (owner ++ [.str "required"]) = .ok (.array ys) →
    KeepsPlaces (listedNames ms) brought ys
  fields : ∀ n ∈ names, ∀ q os, d.get (owner ++ .str "properties" :: n :: q) = .ok (.object os) →
    (∃ m ∈ names, doc.get (owner ++ .str "properties" :: m :: q) = .ok (.object os)) ∨
      ∃ v ∈ brought, v.get q = .ok (.object os)

theorem editedLocally_of_nodeEdited {doc d : Value} {owner : Path} {ms fields : Members}
    {names brought : List Value} (node : doc.get owner = .ok (.object ms))
    (isFields : Members.find? (.str "properties") ms = some (.object fields))
    (h : NodeEdited doc owner ms fields names brought d) : EditedLocally doc owner names brought d := by
  obtain ⟨others, ns, edited, relists, rfl⟩ := h
  have after : (doc.put owner (.object ns)).get owner = .ok (.object ns) := Value.get_put node _
  have required : ∀ ys, (doc.put owner (.object ns)).get (owner ++ [.str "required"]) = .ok (.array ys) ↔
      Members.find? (.str "required") ns = some (.array ys) := fun ys => Value.get_snoc_object after _
  refine ⟨fun r apart => ?_, fun r os ps hos hps outside => ?_, fun os ys hos hys => ?_,
    fun n hn q os hos => ?_⟩
  · refine Value.getFrom_put_of_diverge (List.cons_ne_nil _ _ : editedBelow names ≠ [])
      (fun q => getFrom_of_relists isFields edited relists) node (fun t ht => ?_) r 0
    exact apart _ (List.mem_map_of_mem ht)
  · refine keepsOrder_put (fun hos hps => keepsOrder_of_get isFields edited relists hos hps) node hos hps
      fun within ys hys => outside within ys ((required ys).mpr hys)
  · cases node.symm.trans hos
    exact keepsPlaces_of_relists relists ((required ys).mp hys)
  · rw [Value.get_append_eq_ok_iff] at hos
    obtain ⟨_, heq, hos⟩ := hos
    cases after.symm.trans heq
    obtain ⟨w, hw, hbelow⟩ := Value.get_key_eq_ok_iff.mp hos
    cases (find?_properties_of_relists relists).symm.trans hw
    refine (edited.moved hn hbelow).imp_left ?_
    rintro ⟨m, hm, hget⟩
    exact ⟨m, hm, Value.get_append_eq_ok_iff.mpr ⟨_, node, Value.get_key_eq_ok_iff.mpr ⟨_, isFields, hget⟩⟩⟩

end Fields

namespace Editor

open Fields

/-- Edits of fields are local. A field is renamed, made required or no longer so, deleted with its name, or added:
what the document leads to apart from the edited places stays, and so do the orders of its keys. -/
theorem fieldEdit_local {editor : Editor} {owner : Path} {ms fields : Members} {operation : Operation}
    {reply : Value} {names brought : List Value} (node : editor.document.get owner = .ok (.object ms))
    (isFields : Members.find? (.str "properties") ms = some (.object fields)) (distinct : fields.Distinct)
    (edit : FieldEdit owner operation reply names brought)
    (hreply : (editor.perform operation).reply = .ok reply) :
    EditedLocally editor.document owner names brought (editor.perform operation).editor.document :=
  editedLocally_of_nodeEdited node isFields (edit.nodeEdited node isFields distinct hreply)

/-- One of two fields is renamed: the other one stays, the node keeps its keys in order and its required names in
their places, and what stands at the new name was there before. -/
theorem fieldEdit_local_address :
    let d := (address.perform (renameField home "city" "town")).editor.document
    d.get (home ++ [.str "properties", .str "zip"]) = .ok Schema.stringNode ∧
      (∃ ns, d.get home = .ok (.object ns) ∧ KeepsOrder [.str "city", .str "town"] homeMembers ns) ∧
      KeepsPlaces [.str "zip", .str "city"] [.str "town"] [.str "zip", .str "town"] ∧
      ∃ m ∈ [Value.str "city", .str "town"], address.document.get (home ++ [.str "properties", m]) =
        .ok (.object [(.str "type", .str "object"), (.str "properties", .object [])]) := by
  have node : address.document.get home = .ok (.object homeMembers) := rfl
  have isFields : Members.find? (.str "properties") homeMembers = some (.object homeFields) := rfl
  have edit : FieldEdit home (renameField home "city" "town") (.bool true) [.str "city", .str "town"]
      [.str "town"] := .rename rfl
  have edited := fieldEdit_local node isFields (by decide) edit rfl
  have inside : ∀ {p q}, Value.Diverge (.object homeMembers) p q →
      Value.Diverge address.document (home ++ p) (home ++ q) := fun h => .deeper rfl rfl (.deeper rfl rfl h)
  have outside : ¬ Value.Within address.document (home ++ [.str "required"]) home := by
    rintro (_ | ⟨-, -, _ | ⟨-, -, hnil⟩⟩)
    cases hnil
  refine ⟨?_, ⟨_, rfl, edited.order home _ _ rfl rfl fun within => absurd within outside⟩,
    edited.list _ _ node rfl, ?_⟩
  · refine (edited.apart _ fun p hp => ?_).trans rfl
    simp only [editedPlaces, editedBelow, List.map_cons, List.map_nil, List.mem_cons, List.not_mem_nil,
      or_false] at hp
    rcases hp with rfl | rfl | rfl
    · exact inside (.here _ _ (by decide))
    · exact inside (.deeper rfl rfl (.here _ _ (by decide)))
    · exact inside (.deeper rfl rfl (.here _ _ (by decide)))
  · refine (edited.fields (.str "town") (by decide) [] _ rfl).resolve_right ?_
    rintro ⟨v, hv, hq⟩
    cases List.mem_singleton.mp hv
    exact Value.get_scalar_ne_object _ [] _ hq

def xy : Members := [(.str "x", .int 1), (.str "y", .int 2)]

def yx : Members := [(.str "y", .int 3), (.str "x", .int 4)]

def shelf : Editor where
  document := .object [(.str "type", .str "object"), (.str "properties", .object []),
    (.str "required", .array [.str "a", .object xy, .object yx])]
  openNodes := .initial
  nextField := 1
  listeners := []

/-- When a name goes from the list of required names, the objects after it move up, and the path of the first leads
to an object with its keys in another order. -/
theorem shelf_changes_order :
    FieldEdit [] (switchField [] "a" false) .null [] [] ∧
      (shelf.perform (switchField [] "a" false)).reply = .ok .null ∧
      shelf.document.get [.str "required", .int 1] = .ok (.object xy) ∧
      (shelf.perform (switchField [] "a" false)).editor.document.get [.str "required", .int 1] =
        .ok (.object yx) ∧
      ¬ KeepsOrder [] xy yx ∧ ¬ KeepsOrder [.str "a"] xy yx := by
  refine ⟨.toggleRequired rfl, rfl, rfl, rfl, ?_, ?_⟩
  · unfold KeepsOrder
    decide
  · unfold KeepsOrder
    decide

end Editor

end SchemaForge
