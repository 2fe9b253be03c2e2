import SchemaForge.Proofs.Editor.Steps
import SchemaForge.Proofs.Schema.Replacement

/-!
How far the switch for required fields goes. In a document in normal form it reaches every object node below
properties and items: afterwards such a node requires all of its properties, in their order, or it has no
list of required names. It stops at items that have variants instead of a type, and an object node among or
below those variants stays as it was.
-/

namespace SchemaForge

namespace Schema

open Members (mapAt mapPicked)

/-! ### Object nodes -/

/-- An object node that is reached from a root through the properties of object nodes, the items of array
nodes, and the variants that stand for items without a type, with the path to it. `amongVariants` says
whether the way there leads through variants. -/
inductive ReachedObject : Value → Path → (amongVariants : Bool) → Members → Prop where
  | root {ms : Members} (isObject : Members.find? (.str "type") ms = some (.str "object")) :
      ReachedObject (.object ms) [] false ms
  | field {ms ps ns : Members} {name : Scalar} {v : Value} {path : Path} {amongVariants : Bool}
      (isObject : Members.find? (.str "type") ms = some (.str "object"))
      (properties : Members.find? (.str "properties") ms = some (.object ps))
      (value : Members.find? name ps = some v) (node : ReachedObject v path amongVariants ns) :
      ReachedObject (.object ms) (.str "properties" :: .scalar name :: path) amongVariants ns
  | items {ms ns : Members} {v : Value} {path : Path} {amongVariants : Bool}
      (isArray : Members.find? (.str "type") ms = some (.str "array"))
      (items : Members.find? (.str "items") ms = some v)
      (node : ReachedObject v path amongVariants ns) :
      ReachedObject (.object ms) (.str "items" :: path) amongVariants ns
  | variant {ms is ns : Members} {xs : List Value} {i : Nat} {v : Value} {path : Path}
      {amongVariants : Bool} (isArray : Members.find? (.str "type") ms = some (.str "array"))
      (items : Members.find? (.str "items") ms = some (.object is))
      (noType : Members.find? (.str "type") is = none)
      (set : Members.find? (.str "oneOf") is = some (.array xs)) (element : xs[i]? = some v)
      (node : ReachedObject v path amongVariants ns) :
      ReachedObject (.object ms) (.str "items" :: .str "oneOf" :: .int i :: path) true ns

section ReachedObject

variable {v : Value} {path : Path} {amongVariants : Bool} {ns : Members}

theorem ReachedObject.isObject (node : ReachedObject v path amongVariants ns) :
    Members.find? (.str "type") ns = some (.str "object") := by
  induction node with
  | root isObject => exact isObject
  | field _ _ _ _ ih => exact ih
  | items _ _ _ ih => exact ih
  | variant _ _ _ _ _ _ ih => exact ih

theorem ReachedObject.exists_root (node : ReachedObject v path amongVariants ns) :
    ∃ ms, v = .object ms := by
  cases node <;> exact ⟨_, rfl⟩

theorem ReachedObject.get (node : ReachedObject v path amongVariants ns) :
    v.get path = .ok (.object ns) := by
  induction node with
  | root _ => rfl
  | @field ms ps ns name v path _ isObject properties value _ ih =>
      refine Value.get_cons_eq_ok_iff.mpr ⟨.object ps, by simp [Value.child, properties], ?_⟩
      exact Value.get_cons_eq_ok_iff.mpr ⟨v, by simp [Value.child, value], ih⟩
  | @items ms ns v path _ isArray items _ ih =>
      exact Value.get_cons_eq_ok_iff.mpr ⟨v, by simp [Value.child, items], ih⟩
  | @variant ms is ns xs i v path _ isArray items noType set element _ ih =>
      obtain ⟨hlt, -⟩ := List.getElem?_eq_some_iff.mp element
      refine Value.get_cons_eq_ok_iff.mpr ⟨.object is, by simp [Value.child, items], ?_⟩
      refine Value.get_cons_eq_ok_iff.mpr ⟨.array xs, by simp [Value.child, set], ?_⟩
      refine Value.get_cons_eq_ok_iff.mpr ⟨v, ?_, ih⟩
      have helement : xs[i] = v := Option.some.inj ((List.getElem?_eq_getElem hlt).symm.trans element)
      simp [Value.child, resolveIndex, hlt, helement]

theorem IsNormalProperty.isNormal {ms : Members} {t : String}
    (h : IsNormalProperty (.object ms)) (type : Members.find? (.str "type") ms = some (.str t))
    (container : isContainerType (.str t) = true) : IsNormal (.object ms) :=
  h (by rw [isContainer_of_typed type, container])

/-- Object nodes of a document in normal form are in normal form. -/
theorem ReachedObject.isNormal (node : ReachedObject v path amongVariants ns)
    (h : IsNormalProperty v) : IsNormal (.object ns) := by
  induction node with
  | root isObject => exact h.isNormal isObject (by decide)
  | @field ms ps ns name v path _ isObject properties value _ ih =>
      obtain ⟨qs, hqs, hfields⟩ :=
        exists_properties_of_isNormal (h.isNormal isObject (by decide)) isObject
      rw [properties] at hqs
      cases hqs
      obtain ⟨l, hl, -⟩ := Members.exists_mem_of_find? value
      exact ih (hfields _ hl)
  | items isArray items _ ih =>
      have hnode := isNormalNode_items (h.isNormal isArray (by decide)) isArray items
      exact ih fun _ => hnode.2
  | variant isArray items noType set element _ ih =>
      have hnode := isNormalNode_items (h.isNormal isArray (by decide)) isArray items
      exact ih fun _ => isNormal_variant hnode.2 noType set (List.mem_of_getElem? element)

end ReachedObject

/-! ### What the switch does to them -/

section Switch

variable {ms : Members} (required : Bool)

theorem switchRequired_of_untyped (noType : Members.find? (.str "type") ms = none) :
    switchRequired required (.object ms) = .object ms :=
  switchRequired_of_not_declaresContainer required (by simp [declaresContainer, noType])

/-- The list of required names after the switch, next to the properties after it. -/
theorem exists_of_switchRequired {ps : Members}
    (isObject : Members.find? (.str "type") ms = some (.str "object"))
    (properties : Members.find? (.str "properties") ms = some (.object ps)) :
    ∃ ns qs, switchRequired required (.object ms) = .object ns ∧
      Members.find? (.str "properties") ns = some (.object qs) ∧
      Members.keys qs = Members.keys ps ∧
      Members.find? (.str "required") ns =
        if required then some (.array ((Members.keys qs).map .scalar)) else none := by
  refine ⟨_, _, switchRequired_of_object required isObject properties, ?_,
    Members.keys_mapPicked declaresContainer (switchRequired required) ps, ?_⟩
  · exact find?_properties_switched required properties
  · cases required with
    | true =>
        rw [switchNames, if_pos rfl, Members.find?_insert_self, Members.keys_mapPicked, if_pos rfl,
          allNames_eq]
    | false => exact Members.find?_erase_self _ _

/-- The switch is set at an object node exactly if no variants are on the way to it. -/
theorem ReachedObject.get_switchRequired {v : Value} {path : Path} {amongVariants : Bool} {ns : Members}
    (node : ReachedObject v path amongVariants ns) :
    (switchRequired required v).get path =
      .ok (if amongVariants then .object ns else switchRequired required (.object ns)) := by
  induction node with
  | root _ => rfl
  | @field ms ps ns name v path _ isObject properties value _ ih =>
      rw [switchRequired_of_object required isObject properties]
      refine Value.get_cons_eq_ok_iff.mpr
        ⟨.object (mapPicked declaresContainer (switchRequired required) ps), ?_, ?_⟩
      · simp only [Value.child, Value.key_scalar, ok_bind, pure_eq_ok, Except.ok.injEq]
        exact find?_properties_switched required properties
      · refine Value.get_cons_eq_ok_iff.mpr ⟨switchRequired required v, ?_, ih⟩
        simp only [Value.child, Value.key_scalar, ok_bind, pure_eq_ok, Except.ok.injEq,
          Members.find?_mapPicked, value, Option.map_some, Option.some.injEq]
        split
        · rfl
        · next h => rw [switchRequired_of_not_declaresContainer _ (Bool.eq_false_iff.mpr h)]
  | @items ms ns v path _ isArray items _ ih =>
      rw [switchRequired_of_array required isArray]
      refine Value.get_cons_eq_ok_iff.mpr ⟨switchRequired required v, ?_, ih⟩
      simp [Value.child, Members.find?_mapAt, items]
  | @variant ms is ns xs i v path _ isArray items noType set element node _ =>
      -- Items without a type are left alone, and so is whatever is below them.
      have hbelow : (Value.object is).get (.str "oneOf" :: .int i :: path) = .ok (.object ns) := by
        obtain ⟨c, hc, hget⟩ := Value.get_cons_eq_ok_iff.mp
          (ReachedObject.variant isArray items noType set element node).get
        simp only [Value.child, Value.key_scalar, ok_bind, pure_eq_ok, Except.ok.injEq, items,
          Option.some.injEq] at hc
        rwa [hc]
      rw [switchRequired_of_array required isArray]
      refine Value.get_cons_eq_ok_iff.mpr ⟨.object is, ?_, hbelow⟩
      simp [Value.child, Members.find?_mapAt, items, switchRequired_of_untyped required noType]

end Switch

end Schema

namespace Editor

open Schema (ReachedObject)

theorem perform_setAllRequired {editor : Editor} {ms : Members} (h : editor.document = .object ms)
    (required : Value) :
    (editor.perform (.setAllRequired required)).reply = .ok .null ∧
      (editor.perform (.setAllRequired required)).editor.document =
        Schema.switchRequired required.truthy editor.document := by
  have hrun : ((Operation.setAllRequired required).draft editor.document editor.openNodes).run.run
      ⟨editor.nextField, []⟩ =
        (.ok (Draft.commit editor.openNodes (Schema.switchRequired required.truthy (.object ms))),
          ⟨editor.nextField, [.switchingRequired required]⟩) := by
    rw [h]
    rfl
  rw [perform_eq, hrun, h]
  exact ⟨rfl, rfl⟩

/-- The switch for required fields, set in a document in normal form. An object node that is reached without
variants requires all of its properties afterwards, in their order, or has no list of required names. One
that is reached through variants is what it was. -/
theorem required_of_setAllRequired {editor : Editor}
    (isNormal : Schema.normalize editor.document = editor.document) (required : Value) {path : Path}
    {amongVariants : Bool} {ms : Members}
    (node : ReachedObject editor.document path amongVariants ms) :
    (editor.perform (.setAllRequired required)).reply = .ok .null ∧
      (amongVariants = false → ∃ ns ps qs,
        (editor.perform (.setAllRequired required)).editor.document.get path = .ok (.object ns) ∧
          Members.find? (.str "properties") ms = some (.object ps) ∧
          Members.find? (.str "properties") ns = some (.object qs) ∧
          Members.keys qs = Members.keys ps ∧
          Members.find? (.str "required") ns =
            if required.truthy then some (.array ((Members.keys qs).map .scalar)) else none) ∧
      (amongVariants = true →
        (editor.perform (.setAllRequired required)).editor.document.get path = .ok (.object ms)) := by
  obtain ⟨root, hroot⟩ := node.exists_root
  obtain ⟨hreply, hdocument⟩ := perform_setAllRequired hroot required
  have hget := node.get_switchRequired required.truthy
  rw [hdocument]
  refine ⟨hreply, ?_, ?_⟩
  · rintro rfl
    have hnode : Schema.IsNormal (.object ms) := node.isNormal fun _ => isNormal
    obtain ⟨ps, hps, -⟩ := Schema.exists_properties_of_isNormal hnode node.isObject
    obtain ⟨ns, qs, hswitch, hqs, hkeys, hrequired⟩ :=
      Schema.exists_of_switchRequired required.truthy node.isObject hps
    exact ⟨ns, ps, qs, by rw [hget, ← hswitch]; rfl, hps, hqs, hkeys, hrequired⟩
  · rintro rfl
    exact hget

def oneText : Members := [(.str "a", Schema.stringNode)]

def oneTextNode : Members := [(.str "type", .str "object"), (.str "properties", .object oneText)]

/-- An editor of a document whose rows are either objects or texts. -/
def mixedRows : Editor where
  document := .object [(.str "type", .str "object"), (.str "properties", .object
    [(.str "rows", .object [(.str "type", .str "array"), (.str "items", .object
      [(.str "oneOf", .array [.object oneTextNode, Schema.stringNode])])])])]
  openNodes := .initial
  nextField := 1
  listeners := []

def objectRows : Path := [.str "properties", .str "rows", .str "items", .str "oneOf", .int 0]

theorem normalize_mixedRows : Schema.normalize mixedRows.document = mixedRows.document := by
  decide

theorem reachedObject_objectRows :
    ReachedObject mixedRows.document objectRows true oneTextNode :=
  .field rfl rfl rfl (.variant (i := 0) rfl rfl rfl rfl rfl (.root rfl))

/-- With all fields to be required, the root requires its rows, and a row requires nothing. -/
theorem required_of_setAllRequired_rows :
    (∃ ns, (mixedRows.perform (.setAllRequired (.bool true))).editor.document.get [] = .ok (.object ns) ∧
        Members.find? (.str "required") ns = some (.array [.str "rows"])) ∧
      (mixedRows.perform (.setAllRequired (.bool true))).editor.document.get objectRows =
        .ok (.object oneTextNode) := by
  obtain ⟨-, hroot, -⟩ := required_of_setAllRequired normalize_mixedRows (.bool true) (.root rfl)
  obtain ⟨-, -, hrow⟩ :=
    required_of_setAllRequired normalize_mixedRows (.bool true) reachedObject_objectRows
  obtain ⟨ns, ps, qs, hget, hps, -, hkeys, hrequired⟩ := hroot rfl
  cases hps
  rw [hkeys] at hrequired
  exact ⟨⟨ns, hget, hrequired⟩, hrow rfl⟩

/-- A row is an object node with a field, and it does not require that field after the switch was set. -/
theorem objectRows_setAllRequired :
    Schema.normalize mixedRows.document = mixedRows.document ∧
      ReachedObject mixedRows.document objectRows true oneTextNode ∧
      Members.find? (.str "properties") oneTextNode = some (.object oneText) ∧ oneText ≠ [] ∧
      (mixedRows.perform (.setAllRequired (.bool true))).editor.document.get objectRows =
        .ok (.object oneTextNode) ∧
      Members.find? (.str "required") oneTextNode = none :=
  ⟨normalize_mixedRows, reachedObject_objectRows, rfl, by simp [oneText], rfl, rfl⟩

end Editor

end SchemaForge
