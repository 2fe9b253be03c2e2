import SchemaForge.Proofs.Editor.Owners
import SchemaForge.Proofs.Editor.Steps
import SchemaForge.Proofs.Schema.Normalization

/-!
What every document is that is reached while only some scalars are written as keys. A path may lead into an
object by a segment of any kind, a field may be given any name, and a list of pairs that is taken for the
fields of a node may have keys of any kind; any other key that an operation writes is a text. So a property
that a document has exactly if its keys are among those scalars and its parts have the property is kept, if
what comes in from outside has it. If every scalar with the property may be a key, nothing more is asked of
the keys.
-/

namespace SchemaForge

/-- The values that an operation is given and that it may write into a document, in part or as keys. -/
def Operation.brought : Operation → List Value
  | .replaceDocument root => [root]
  | .setValue path v => [path, v]
  | .setMock _ directive => [directive]
  | .rename _ _ name => [name]
  | .toggleRequired _ name _ => [name]
  | .addChildField path => [path]
  | _ => []

/-! ### Descriptions -/

namespace Operation

/-- An argument is taken as it is written, or it is the path that a text denotes. -/
theorem exists_of_mem_arguments {ms : Members} :
    ∀ {args : List (String × Value)}, arguments ms = .ok args → ∀ a ∈ args,
      ∃ m ∈ ms, m.2 = a.2 ∨ ∃ s p, Path.parse s = .ok p ∧ a.2 = .array p := by
  induction ms with
  | nil =>
      intro args h a ha
      cases h
      cases ha
  | cons m ms ih =>
      obtain ⟨k, v⟩ := m
      intro args h a ha
      cases k with
      | str name =>
          rw [arguments] at h
          split at h
          · obtain ⟨n, hn, hcases⟩ := ih h a ha
            exact ⟨n, List.mem_cons_of_mem _ hn, hcases⟩
          · obtain ⟨w, hw, h⟩ := bind_eq_ok_iff.mp h
            obtain ⟨rest, hrest, h⟩ := bind_eq_ok_iff.mp h
            cases h
            rcases List.mem_cons.mp ha with rfl | ha
            · refine ⟨_, List.mem_cons_self, ?_⟩
              unfold argument at hw
              split at hw
              · split at hw
                · obtain ⟨p, hp, hw⟩ := bind_eq_ok_iff.mp hw
                  cases hw
                  exact .inr ⟨_, p, hp, rfl⟩
                · exact .inl (Except.ok.inj hw)
              · exact .inl (Except.ok.inj hw)
            · obtain ⟨n, hn, hcases⟩ := ih hrest a ha
              exact ⟨n, List.mem_cons_of_mem _ hn, hcases⟩
      | _ => cases h

/-- A parameter that has no value of its own gets the argument of its name. -/
theorem valueOf_mem {name : Name} {args : List (String × Value)} {parameter : String}
    (h : missing name args = []) (hparameter : (parameter, none) ∈ name.parameters) :
    (parameter, valueOf name args parameter) ∈ args := by
  have hgiven : args.any (·.1 = parameter) = true := by
    have hnot := List.filter_eq_nil_iff.mp (List.map_eq_nil_iff.mp h) _ hparameter
    simpa using hnot
  unfold valueOf
  cases hlookup : args.lookup parameter with
  | some v =>
      obtain ⟨before, after, rfl, -⟩ := List.lookup_eq_some_iff.mp hlookup
      simp
  | none =>
      obtain ⟨a, ha, heq⟩ := List.any_eq_true.mp hgiven
      have hne := List.lookup_eq_none_iff.mp hlookup a ha
      simp_all

/-- What a description brings in stands in it, or it is the path that a text in it denotes. -/
theorem brought_of_ofValue {K : Scalar → Prop} {P : Value → Prop} (hP : Value.Hereditary K P)
    (hparse : ∀ {text path}, Path.parse text = .ok path → P (.array path)) {description : Value}
    {operation : Operation} (h : P description) (hoperation : ofValue description = .ok operation) :
    ∀ v ∈ operation.brought, P v := by
  obtain ⟨ms, hms, hnamed⟩ := bind_eq_ok_iff.mp hoperation
  obtain ⟨name, -, hgiven⟩ := bind_eq_ok_iff.mp hnamed
  obtain ⟨args, hargs, hknown⟩ := bind_eq_ok_iff.mp hgiven
  obtain ⟨-, -, hbuild⟩ := bind_eq_ok_iff.mp hknown
  cases description with
  | object ns =>
      cases hms
      split at hbuild
      · next hmissing =>
          cases hbuild
          have hvalue : ∀ parameter, (parameter, none) ∈ name.parameters →
              P (valueOf name args parameter) := by
            intro parameter hparameter
            obtain ⟨m, hm, heq | ⟨s, p, hp, heq⟩⟩ :=
              exists_of_mem_arguments hargs _ (valueOf_mem hmissing hparameter)
            · have hvalue : P m.2 := ((hP.object_iff ms).mp h).2.2 m hm
              rwa [heq] at hvalue
            · have hvalue : P (.array p) := hparse hp
              rwa [← heq] at hvalue
          cases name with
          | replaceDocument => simpa [brought, Name.build] using hvalue "new_root" (by decide)
          | setValue =>
              simpa [brought, Name.build] using ⟨hvalue "path" (by decide), hvalue "value" (by decide)⟩
          | setMock => simpa [brought, Name.build] using hvalue "directive" (by decide)
          | rename => simpa [brought, Name.build] using hvalue "new_name" (by decide)
          | toggleRequired => simpa [brought, Name.build] using hvalue "name" (by decide)
          | addChildField => simpa [brought, Name.build] using hvalue "properties_path" (by decide)
          | _ => simp [brought, Name.build]
      · cases hbuild
  | _ => cases hms

end Operation

namespace Editor

open Value (Hereditary)
open Fields (Relists)

/-! ### Keys -/

/-- Whether the last segment of a path may be a key, if it is one of an object. -/
def EndsInKey (K : Scalar → Prop) (doc : Value) (path : Path) : Prop :=
  ∀ p s ms k, path = p ++ [s] → doc.get p = .ok (.object ms) → s.key = .ok k → K k

/-- Whether what a path leads to has nothing but possible keys as keys when it is taken for an object. -/
def HoldsKeys (K : Scalar → Prop) (doc : Value) (path : Path) : Prop :=
  ∀ v ms, doc.get path = .ok v → v.toMembers = .ok ms → ∀ m ∈ ms, K m.1

/-- Whether the keys that an operation writes in a document may be keys. -/
def WritesKeys (K : Scalar → Prop) (doc : Value) : Operation → Prop
  | .setValue path v => isBlankValue v = false → ∀ p, path.elements = .ok p → EndsInKey K doc p
  | .rename _ _ name => ∀ k, name.key = .ok k → K k
  | .addSiblingField path after => after = .null → ∀ p, path.elements = .ok p → HoldsKeys K doc p
  | .addChildField path => ∀ p, path.elements = .ok p → EndsInKey K doc p ∧ HoldsKeys K doc p
  | _ => True

section Hereditary

variable {K : Scalar → Prop} {P : Value → Prop} (hP : Hereditary K P)

include hP

/-- Where every scalar with the property may be a key, so may whatever an operation writes as one. -/
theorem writesKeys_of_brought (hkey : ∀ k, P (.scalar k) → K k) {doc : Value} (hdoc : P doc)
    {operation : Operation} (brings : ∀ v ∈ operation.brought, P v) : WritesKeys K doc operation := by
  have key_of : ∀ {v k}, P v → v.key = .ok k → K k := by
    intro v k hv hk
    cases v with
    | scalar l =>
        cases hk
        exact hkey k hv
    | _ => cases hk
  have ends : ∀ {path p}, P path → path.elements = .ok p → EndsInKey K doc p := by
    rintro path p hpath hp q s ms k rfl - hk
    exact key_of (hP.of_elements hpath hp s (by simp)) hk
  have holds : ∀ p, HoldsKeys K doc p := fun p v ms hget hms =>
    hP.key_of_toMembers hkey (hP.of_get hdoc hget) hms
  cases operation with
  | setValue path v => exact fun _ p hp => ends (brings path (by simp [Operation.brought])) hp
  | rename path old name => exact fun k hk => key_of (brings name (by simp [Operation.brought])) hk
  | addSiblingField path after => exact fun _ p _ => holds p
  | addChildField path =>
      exact fun p hp => ⟨ends (brings path (by simp [Operation.brought])) hp, holds p⟩
  | _ => trivial

theorem endsInKey_text (doc : Value) (p : Path) (name : String) : EndsInKey K doc (p ++ [.str name]) := by
  intro q s ms k heq _ hk
  rw [← (List.append_singleton_inj.mp heq).2] at hk
  cases hk
  exact hP.key name

/-- Nothing is written for a directive that counts as false. -/
theorem hereditary_mockValue {directive : Value} (hdirective : P directive)
    (hblank : isBlankValue (mockValue directive) = false) : P (mockValue directive) := by
  unfold mockValue at hblank ⊢
  split
  · exact (hP.object_iff _).mpr ⟨by simpa using hP.key _, List.pairwise_singleton _ _,
      by simpa using hdirective⟩
  · next hfalse =>
      rw [if_neg hfalse] at hblank
      cases hblank

/-! ### Writing and removing -/

section Document

variable {doc new : Value} {path : Path} (hdoc : P doc)

include hdoc

theorem hereditary_set {v : Value} (hends : EndsInKey K doc path) (hv : P v)
    (h : doc.set path v = .ok new) : P new := by
  induction path using List.reverseRecOn with
  | nil =>
      cases h
      exact hv
  | append_singleton p s _ =>
      obtain ⟨ms, k, hget, rfl, rfl⟩ | ⟨xs, n, hget, rfl⟩ := Value.exists_of_set_snoc h
      · have hk : K k := hends p _ ms k rfl hget rfl
        exact hP.put hdoc hget (hP.insert (hP.of_get hdoc hget) (.inl hk) hv)
      · exact hP.put hdoc hget (hP.set_array (hP.of_get hdoc hget) hv n)

theorem hereditary_remove (h : doc.remove path = .ok new) : P new := by
  induction path using List.reverseRecOn with
  | nil => cases h
  | append_singleton p s _ =>
      obtain ⟨ms, hget, rfl⟩ | ⟨xs, ys, hget, hys, rfl⟩ := Value.exists_of_remove_snoc h
      · exact hP.put hdoc hget (hP.of_sublist (hP.of_get hdoc hget) List.filter_sublist)
      · have hxs := (hP.array_iff xs).mp (hP.of_get hdoc hget)
        exact hP.put hdoc hget ((hP.array_iff ys).mpr fun y hy => hxs y (hys.subset hy))

end Document

/-! ### Required names -/

theorem hereditary_relists {ms ns : Members} {fresh : List Value} (hms : P (.object ms))
    (hfresh : ∀ n ∈ fresh, P n) (h : Relists ms fresh ns) : P (.object ns) := by
  cases h with
  | same => exact hms
  | dropped => exact hP.of_sublist hms List.filter_sublist
  | @given names places =>
      refine hP.insert hms (.inl (hP.key _)) ((hP.array_iff names).mpr fun n hn => ?_)
      rcases places.mem hn with hn | hn
      · exact hfresh n hn
      · unfold Fields.listedNames at hn
        split at hn
        · next listed heq =>
            obtain ⟨v, hv, hlisted⟩ := Option.map_eq_some_iff.mp heq
            exact hP.of_elements (hP.of_find? hms hv) hlisted n hn
        · cases hn

theorem hereditary_withRequired {doc new name : Value} {path : Path} {required : Bool} (hdoc : P doc)
    (hname : required = true → P name)
    (h : Fields.withRequired doc path name required = .ok new) : P new := by
  obtain ⟨ms, ns, hget, rfl, hns⟩ := Fields.exists_of_withRequired h
  refine hP.put hdoc hget (hereditary_relists hP (hP.of_get hdoc hget) (fun n hn => ?_) hns)
  split at hn
  · next hrequired => exact List.mem_singleton.mp hn ▸ hname hrequired
  · cases hn

/-! ### Operations -/

/-- A new field stands at the end, or below a member that is there. -/
theorem hereditary_withField {props after : Value} {number n : Nat} {qs : Members} (hprops : P props)
    (hnumber : Fields.nextNumber props number = .ok n)
    (hkeys : after = .null → ∀ ms, props.toMembers = .ok ms → ∀ m ∈ ms, K m.1)
    (h : Draft.withField props after (Fields.fieldName n) = .ok qs) : P (.object qs) := by
  unfold Draft.withField at h
  split at h
  · next hnull =>
      obtain ⟨ms, hms, h⟩ := bind_eq_ok_iff.mp h
      cases h
      exact hP.insert (hP.of_toMembers hprops hms (hkeys hnull ms hms)) (.inl (hP.key _))
        (Schema.hereditary_stringNode hP)
  · obtain ⟨ms, hms, h⟩ := bind_eq_ok_iff.mp h
    cases h
    cases props with
    | object ps =>
        cases hms
        exact Fields.hereditary_insertAfter hP hprops (Schema.hereditary_stringNode hP) (hP.key _)
          (Fields.has_nextNumber hnumber).2
    | _ => cases hms

section Operations

variable {doc new : Value} {nodes : OpenNodes} {path : Path} {s t : Ledger} {c : Change} (hdoc : P doc)

include hdoc

theorem hereditary_setValue {v : Value} (hv : isBlankValue v = false → P v)
    (hends : isBlankValue v = false → EndsInKey K doc path)
    (hyields : (Draft.setValue doc nodes path v).Yields s c t) (hnew : c.document = some new) :
    P new := by
  rcases Draft.exists_of_setValue hyields with ⟨-, rfl⟩ | ⟨-, d, hremove, rfl⟩ |
    ⟨hblank, d, hset, rfl⟩
  · simp [Draft.nothing] at hnew
  · cases hnew
    exact hereditary_remove hP hdoc hremove
  · cases hnew
    exact hereditary_set hP hdoc (hends hblank) (hv hblank) hset

theorem hereditary_setType {type : Value}
    (hyields : (Draft.setType doc nodes path type).Yields s c t) (hnew : c.document = some new) :
    P new := by
  obtain ⟨node, old, hget, -, rfl | ⟨shape, description, d, hshape, hdescription, hset, rfl⟩⟩ :=
    Draft.exists_of_setType hyields
  · simp [Draft.nothing] at hnew
  · cases hnew
    rw [Value.set_eq_put hget] at hset
    cases hset
    obtain ⟨type, rfl⟩ := Schema.exists_of_ofType hshape
    obtain ⟨ms, hms⟩ := Schema.exists_shape type
    have hfresh : P (.object ms) := hms ▸ Schema.hereditary_shape hP type
    rw [hms]
    refine hP.put hdoc hget ?_
    split
    · next htruthy =>
        refine hP.insert hfresh (.inl (hP.key _)) ?_
        obtain ⟨o, ho, hdescription⟩ := bind_eq_ok_iff.mp hdescription
        obtain ⟨ns, hns, hfind⟩ := bind_eq_ok_iff.mp ho
        cases hfind
        cases hdescription
        cases node with
        | object ns' =>
            cases hns
            cases hfound : Members.find? (.str "description") ns with
            | none => simp [hfound, Value.truthy] at htruthy
            | some v => exact hP.of_find? (hP.of_get hdoc hget) hfound
        | _ => cases hns
    · exact hfresh

theorem hereditary_rename {old name : Value} (hname : ∀ k, name.key = .ok k → K k)
    (hyields : (Draft.rename doc nodes path old name).Yields s c t)
    (hnew : c.document = some new) : P new := by
  obtain ⟨props, hprops, rfl | ⟨ms, oldKey, newKey, field, moved, named, hmembers, holdKey, hnewKey, -,
    -, hmoved, hnamed, -, rfl⟩⟩ := Draft.exists_of_rename hyields
  · simp [Draft.nothing] at hnew
  cases hnew
  have hkey : K newKey := hname newKey hnewKey
  have hvalue : P name := by
    cases name with
    | scalar k =>
        cases hnewKey
        exact hP.scalar hkey
    | _ => cases hnewKey
  cases props with
  | object qs =>
      cases hmembers
      rw [Value.set_eq_put hprops] at hmoved
      cases hmoved
      have hmoved := hP.put hdoc hprops
        (@Fields.hereditary_renameKey _ _ hP old _ _ (hP.of_get hdoc hprops) hkey)
      rcases Fields.exists_of_renameRequired hnamed with rfl | ⟨rs, ns, hget, rfl, hns⟩
      · exact hmoved
      · refine hP.put hmoved hget (hereditary_relists hP (hP.of_get hmoved hget) (fun n hn => ?_) hns)
        exact List.mem_singleton.mp hn ▸ hvalue
  | _ => cases hmembers

theorem hereditary_toggleRequired {name : Value} {required : Bool} (hname : P name)
    (hyields : (Draft.toggleRequired doc nodes path name required).Yields s c t)
    (hnew : c.document = some new) : P new := by
  obtain ⟨o, ho, rfl⟩ := Draft.exists_of_toggleRequired hyields
  cases hnew
  exact hereditary_withRequired hP hdoc (fun _ => hname) (by rw [Fields.withRequired, ho]; rfl)

theorem hereditary_deleteField {prune : Bool}
    (hyields : (Draft.deleteField doc nodes path prune).Yields s c t) (hnew : c.document = some new) :
    P new := by
  obtain ⟨removed, hremoved, rfl | ⟨name, pruned, hpruned, rfl⟩⟩ := Draft.exists_of_delete hyields
  · cases hnew
    exact hereditary_remove hP hdoc hremoved
  · cases hnew
    exact hereditary_withRequired hP (hereditary_remove hP hdoc hremoved) (by simp) hpruned

theorem hereditary_addSiblingField {after : Value} (hkeys : after = .null → HoldsKeys K doc path)
    (hyields : (Draft.addSiblingField doc nodes path after).Yields s c t)
    (hnew : c.document = some new) : P new := by
  obtain ⟨props, number, qs, added, required, hprops, -, hnumber, hfield, hadded, hrequired, rfl, -⟩ :=
    Draft.exists_of_addSiblingField hyields
  cases hnew
  rw [Value.set_eq_put hprops] at hadded
  cases hadded
  have hqs := hereditary_withField hP (hP.of_get hdoc hprops) hnumber
    (fun hnull ms => hkeys hnull props ms hprops) hfield
  exact hereditary_withRequired hP (hP.put hdoc hprops hqs) (fun _ => hP.text _) hrequired

theorem hereditary_addChildField (hends : EndsInKey K doc path) (hkeys : HoldsKeys K doc path)
    (hyields : (Draft.addChildField doc nodes path).Yields s c t) (hnew : c.document = some new) :
    P new := by
  obtain ⟨_, props, number, ms, added, required, -, hprops, -, hmembers, hadded, hrequired, rfl, -⟩ :=
    Draft.exists_of_addChildField hyields
  cases hnew
  have hms : P (.object ms) := by
    rcases hprops with ⟨-, hprops⟩ | ⟨-, rfl⟩
    · exact hP.of_toMembers (hP.of_get hdoc hprops) hmembers (hkeys props ms hprops hmembers)
    · cases hmembers
      exact hP.empty
  have hfields := @Hereditary.insert _ _ hP (.str (Fields.fieldName number)) _ _ hms (.inl (hP.key _))
    (Schema.hereditary_stringNode hP)
  exact hereditary_withRequired hP (hereditary_set hP hdoc hends hfields hadded) (fun _ => hP.text _)
    hrequired

end Operations

/-- Each operation keeps a hereditary property of the document, if what it brings in has the property and what
it writes as keys may be keys. -/
theorem hereditary_draft {doc new : Value} {nodes : OpenNodes} {operation : Operation} {s t : Ledger}
    {c : Change} (hdoc : P doc) (brings : ∀ v ∈ operation.brought, P v)
    (keys : WritesKeys K doc operation)
    (hyields : (operation.draft doc nodes).Yields s c t) (hnew : c.document = some new) : P new := by
  cases operation with
  | replaceDocument root =>
      obtain ⟨ms, rfl, rfl⟩ := Draft.exists_of_replaceDocument hyields
      cases hnew
      exact Schema.hereditary_normalize hP (brings _ (by simp [Operation.brought]))
  | setValue path v =>
      obtain ⟨p, _, hp, hyields⟩ := Draft.yields_bind_iff.mp hyields
      have hpath := (Draft.yields_lift_iff.mp hp).1
      exact hereditary_setValue hP hdoc (fun _ => brings v (by simp [Operation.brought]))
        (fun hblank => keys hblank p hpath) hyields hnew
  | setMock path directive =>
      obtain ⟨p, _, -, hyields⟩ := Draft.yields_bind_iff.mp hyields
      have hdirective : P directive := brings _ (by simp [Operation.brought])
      exact hereditary_setValue hP hdoc (hereditary_mockValue hP hdirective)
        (fun _ => endsInKey_text hP doc p "mock") hyields hnew
  | setType path type =>
      obtain ⟨p, _, -, hyields⟩ := Draft.yields_bind_iff.mp hyields
      exact hereditary_setType hP hdoc hyields hnew
  | rename path old name =>
      obtain ⟨p, _, -, hyields⟩ := Draft.yields_bind_iff.mp hyields
      exact hereditary_rename hP hdoc keys hyields hnew
  | toggleRequired path name required =>
      obtain ⟨p, _, -, hyields⟩ := Draft.yields_bind_iff.mp hyields
      exact hereditary_toggleRequired hP hdoc (brings name (by simp [Operation.brought])) hyields hnew
  | setAllRequired required =>
      obtain ⟨-, rfl⟩ := Draft.exists_of_setAllRequired hyields
      cases hnew
      exact Schema.hereditary_switchRequired hP hdoc _
  | deleteField path prune =>
      obtain ⟨p, _, -, hyields⟩ := Draft.yields_bind_iff.mp hyields
      exact hereditary_deleteField hP hdoc hyields hnew
  | addSiblingField path after =>
      obtain ⟨p, _, hp, hyields⟩ := Draft.yields_bind_iff.mp hyields
      have hpath := (Draft.yields_lift_iff.mp hp).1
      exact hereditary_addSiblingField hP hdoc (fun hnull => keys hnull p hpath) hyields hnew
  | addChildField path =>
      obtain ⟨p, _, hp, hyields⟩ := Draft.yields_bind_iff.mp hyields
      have hpath := (Draft.yields_lift_iff.mp hp).1
      exact hereditary_addChildField hP hdoc (keys p hpath).1 (keys p hpath).2 hyields hnew
  | toggleOpen path value =>
      obtain ⟨p, _, -, hyields⟩ := Draft.yields_bind_iff.mp hyields
      rw [Draft.document_of_toggleOpen hyields] at hnew
      cases hnew

theorem hereditary_emptyDocument : P Schema.emptyDocument :=
  (hP.object_iff _).mpr ⟨by simpa using ⟨hP.key _, hP.key _, hP.key _⟩, by decide,
    by simpa using ⟨hP.text _, hP.text _, hP.empty⟩⟩

/-- Every document that is reached has the property, if what comes in has it and what is written as keys may
be keys. -/
theorem hereditary_of_reached {editor : Editor}
    (reached : ReachedBy P (fun doc operation => (∀ v ∈ operation.brought, P v) ∧ WritesKeys K doc operation)
      editor) : P editor.document :=
  reached.document (Schema.hereditary_normalize hP (hereditary_emptyDocument hP))
    (fun _ => Schema.hereditary_normalize hP)
    fun hdoc ⟨brings, keys⟩ => hereditary_draft hP hdoc brings keys

/-- Where every scalar with the property may be a key, it is enough that what comes in has the property. -/
theorem hereditary_of_reached_of_brought (hkey : ∀ k, P (.scalar k) → K k) {editor : Editor}
    (reached : ReachedBy P (fun _ operation => ∀ v ∈ operation.brought, P v) editor) : P editor.document :=
  reached.document (Schema.hereditary_normalize hP (hereditary_emptyDocument hP))
    (fun _ => Schema.hereditary_normalize hP)
    fun hdoc brings => hereditary_draft hP hdoc brings (writesKeys_of_brought hP hkey hdoc brings)

end Hereditary

end Editor

end SchemaForge
