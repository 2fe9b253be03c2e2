import SchemaForge.Proofs.Editor.Steps
import SchemaForge.Proofs.Editor.Owners

/-!
Names of new fields. Numbers are given out in order and never taken back, by operations that fail no more than
by others, so an editor never gives a name twice; the search for a free name passes over taken ones only and
ends at the latest after as many as the mapping has members. The mapping keeps its entries. Two places are
special: the members of the whole document, among which the list of required names stands that takes the new
name in; and a mapping that stands in the place of such a list.
-/

namespace SchemaForge

/-- Where an operation adds a field, and after which key, both as they are given. Other operations add none. -/
def Operation.addition : Operation → Option (Value × Value)
  | .addSiblingField path after => some (path, after)
  | .addChildField path => some (path, .null)
  | _ => none

namespace Editor

open Fields (fieldName nextNumber)

/-- The names that a run of operations gives to new fields. -/
def newNames (editor : Editor) : List Operation → List Value
  | [] => []
  | operation :: operations =>
      let outcome := editor.perform operation
      let names := match operation.addition, outcome.reply with
        | some _, .ok name => [name]
        | _, _ => []
      names ++ newNames outcome.editor operations

/-- Whether the entry at a key is left alone when a field is added to the mapping at `p`. The required names
of the whole document are not if the field is added to the document itself; and a mapping in the place of
required names is not if the field is to come after a key that equals none. -/
def Spared (p : Path) (after : Value) (k : Scalar) : Prop :=
  (p = [] → k ≠ .str "required") ∧ (after = .float .nan → p.getLast? ≠ some (.str "required"))

/-- The outcome of adding a field with the number `n` to the mapping of `ms` at `p`. -/
structure AddsField (editor : Editor) (o : Outcome) (p : Path) (after : Value) (ms : Members)
    (n : Nat) : Prop where
  first : IsLeast {i | editor.nextField ≤ i ∧ Members.has (.str (fieldName i)) ms = false} n
  next : o.editor.nextField = n + 1
  kept : ∀ k v, Members.find? k ms = some v → Spared p after k →
    o.editor.document.get (p ++ [.scalar k]) = .ok v

/-! ### One field -/

/-- What an operation that adds a field has looked up and worked out. -/
theorem exists_of_addition {editor : Editor} {operation : Operation} {path after name : Value}
    (hadds : operation.addition = some (path, after))
    (hreply : (editor.perform operation).reply = .ok name) :
    ∃ p props n ms added d, path.elements = .ok p ∧
      (editor.document.get p = .ok props ∨ editor.document.has p = .ok false) ∧
      (after ≠ .null → props.holds after = .ok true) ∧ nextNumber props editor.nextField = .ok n ∧
      Draft.withField props after (fieldName n) = .ok ms ∧
      editor.document.set p (.object ms) = .ok added ∧
      Fields.withRequired added p (.str (fieldName n)) true = .ok d ∧ name = .str (fieldName n) ∧
      (editor.perform operation).editor.document = d ∧
      (editor.perform operation).editor.nextField = n + 1 := by
  rcases perform_cases editor operation with ⟨change, ledger, hyields, heq⟩ | ⟨fault, _, -, heq⟩
  · rw [heq] at hreply ⊢
    cases hreply
    cases operation with
    | addSiblingField path' after' =>
        cases hadds
        obtain ⟨p, _, hpath, hyields⟩ := Draft.yields_bind_iff.mp hyields
        obtain ⟨hp, rfl⟩ := Draft.yields_lift_iff.mp hpath
        obtain ⟨props, n, ms, added, d, hprops, hafter, hn, hms, hadded, hd, rfl, hnext⟩ :=
          Draft.exists_of_addSiblingField hyields
        exact ⟨p, props, n, ms, added, d, hp, .inl hprops, hafter, hn, hms, hadded, hd, rfl, rfl, hnext⟩
    | addChildField path' =>
        cases hadds
        obtain ⟨p, _, hpath, hyields⟩ := Draft.yields_bind_iff.mp hyields
        obtain ⟨hp, rfl⟩ := Draft.yields_lift_iff.mp hpath
        obtain ⟨_, props, n, old, added, d, -, hprops, hn, hold, hadded, hd, rfl, hnext⟩ :=
          Draft.exists_of_addChildField hyields
        have hms : Draft.withField props .null (fieldName n) =
            .ok (Members.insert (.str (fieldName n)) Schema.stringNode old) := by
          rw [Draft.withField, if_pos rfl, hold]
          rfl
        exact ⟨p, props, n, _, added, d, hp, hprops.imp And.right And.left, fun h => absurd rfl h, hn,
          hms, hadded, hd, rfl, rfl, hnext⟩
    | _ => cases hadds
  · rw [heq] at hreply
    cases hreply

section Mapping

variable {ms ns : Members} {after : Value} {name : String}
  (h : Draft.withField (.object ms) after name = .ok ns)

include h

/-- A mapping with a new field leads from its own keys to what they led to before. -/
theorem find?_withField (hfree : Members.has (.str name) ms = false) {k : Scalar} {v : Value}
    (hv : Members.find? k ms = some v) : Members.find? k ns = some v := by
  have hsame : (Scalar.str name).same k = false := by
    rw [Scalar.same_comm, ← Bool.not_eq_true, Scalar.same_str_iff]
    rintro rfl
    simp [Members.has, hv] at hfree
  unfold Draft.withField at h
  split at h
  · cases h
    rw [Members.find?_insert_of_not_same hsame, hv]
  · cases h
    rw [Fields.find?_insertAfter hsame, hv]

/-- The new field is there if it is added at the end, or after a key that is there and equals itself. -/
theorem has_withField (hafter : after ≠ .null → (Value.object ms).holds after = .ok true)
    (hnan : after ≠ .float .nan) : Members.has (.str name) ns = true := by
  unfold Draft.withField at h
  split at h
  · cases h
    rw [Members.has, Members.find?_insert_self]
    rfl
  · next hsome =>
      cases h
      obtain ⟨k, hk, hhas⟩ := bind_eq_ok_iff.mp (hafter hsome)
      cases after with
      | scalar l =>
          cases hk
          obtain ⟨v, hv⟩ := Option.isSome_iff_exists.mp (Except.ok.inj hhas)
          obtain ⟨l, hl, hsame⟩ := Members.exists_mem_of_find? hv
          have hequals := Fields.equals_of_same hsame fun h => hnan (by rw [h])
          have hgrown : Members.has (.str name) (Fields.grown (.scalar k) name ms) = true :=
            Fields.has_grown (.inr ⟨(l, v), hl, hequals⟩)
          rwa [Fields.grown, if_neg hsome] at hgrown
      | _ => cases hk

end Mapping

/-- A field that is added to a mapping gets the first free name, and the mapping keeps its entries. -/
theorem exists_addsField {editor : Editor} {operation : Operation} {path after name : Value}
    {p : Path} {ms : Members} (hadds : operation.addition = some (path, after))
    (hp : path.elements = .ok p) (hget : editor.document.get p = .ok (.object ms))
    (hreply : (editor.perform operation).reply = .ok name) :
    ∃ n, name = .str (fieldName n) ∧
      AddsField editor (editor.perform operation) p after ms n := by
  obtain ⟨p', props, n, ns, added, d, hp', hprops, hafter, hn, hns, hadded, hd, rfl, hdocument, hnext⟩ :=
    exists_of_addition hadds hreply
  cases hp.symm.trans hp'
  obtain rfl : props = .object ms := by
    rcases hprops with hprops | hprops
    · exact Except.ok.inj (hprops.symm.trans hget)
    · simp [Value.has, hget] at hprops
  obtain ⟨-, hfirst⟩ := Fields.isLeast_nextNumber hn
  refine ⟨n, rfl, hfirst, hnext, fun k v hv hspared => ?_⟩
  rw [Value.set_eq_put hget] at hadded
  cases hadded
  rw [hdocument]
  exact Fields.get_of_withRequired (Value.get_put hget _) hd (find?_withField hns hfirst.1.2 hv)
    hspared.1 fun hlast => has_withField hns hafter fun hnan => hspared.2 hnan hlast

/-! ### Runs -/

theorem nextField_le_perform (editor : Editor) (operation : Operation) :
    editor.nextField ≤ (editor.perform operation).editor.nextField := by
  obtain ⟨r, m, told, hle, hrun⟩ :=
    Draft.advances_draft operation editor.document editor.openNodes editor.nextField
  rw [perform_eq, hrun]
  cases r with
  | error fault => exact hle
  | ok change => exact hle

/-- The numbers of new fields increase along a run, and the first one is not below the editor's. -/
theorem exists_newNumbers (operations : List Operation) :
    ∀ editor : Editor, ∃ numbers : List Nat,
      editor.newNames operations = numbers.map (fun n => .str (fieldName n)) ∧
        numbers.Pairwise (· < ·) ∧ ∀ n ∈ numbers, editor.nextField ≤ n := by
  induction operations with
  | nil => exact fun _ => ⟨[], rfl, .nil, by simp⟩
  | cons operation operations ih =>
      intro editor
      obtain ⟨numbers, hnames, hincreasing, hle⟩ := ih (editor.perform operation).editor
      have hstep := nextField_le_perform editor operation
      have hskip : ∀ n ∈ numbers, editor.nextField ≤ n := fun n hn => Nat.le_trans hstep (hle n hn)
      rw [newNames, hnames]
      split
      · next path name hadds hreply =>
          obtain ⟨_, _, n, _, _, _, -, -, -, hn, -, -, -, rfl, -, hnext⟩ := exists_of_addition hadds hreply
          have hfirst : editor.nextField ≤ n := Fields.le_freeNumber hn
          refine ⟨n :: numbers, rfl, .cons (fun m hm => ?_) hincreasing, ?_⟩
          · have := hle m hm
            omega
          · simpa [hfirst] using hskip
      · exact ⟨numbers, rfl, hincreasing, hskip⟩

/-- Names of new fields are fresh for the life of an editor. Along any run of operations, whether they succeed
or fail, their numbers increase; a mapping gets the first free name and keeps its entries, where they are
spared; and there always is a free name. -/
theorem newNames_fresh (editor : Editor) :
    (∀ operations, ∃ numbers : List Nat,
        editor.newNames operations = numbers.map (fun n => .str (fieldName n)) ∧
          numbers.Pairwise (· < ·) ∧ (editor.newNames operations).Nodup) ∧
      (∀ operation path after name p ms, operation.addition = some (path, after) →
        path.elements = .ok p → editor.document.get p = .ok (.object ms) →
          (editor.perform operation).reply = .ok name →
            ∃ n, name = .str (fieldName n) ∧ AddsField editor (editor.perform operation) p after ms n) ∧
      ∀ ms number, ∃ n, nextNumber (.object ms) number = .ok n ∧ n ≤ number + ms.length ∧
        IsLeast {i | number ≤ i ∧ Members.has (.str (fieldName i)) ms = false} n := by
  refine ⟨fun operations => ?_, fun operation path after name p ms hadds hp hget hreply =>
    exists_addsField hadds hp hget hreply, fun ms number => ?_⟩
  · obtain ⟨numbers, hnames, hincreasing, -⟩ := exists_newNumbers operations editor
    refine ⟨numbers, hnames, hincreasing, ?_⟩
    rw [hnames]
    have hnodup : numbers.Nodup := hincreasing.imp fun h => Nat.ne_of_lt h
    exact hnodup.map fun m n hmn => Fields.fieldName_injective (Scalar.str.inj (Value.scalar.inj hmn))
  · have helements : (Value.object ms).elements = .ok (ms.map fun m => .scalar m.1) := rfl
    obtain ⟨n, hn⟩ := Fields.exists_nextNumber helements number
    exact ⟨n, hn, Fields.isLeast_nextNumber hn⟩

def numbered : Editor where
  document := .object [(.str "type", .str "object"), (.str "properties", .object
    [(.str "field_1", Schema.stringNode), (.str "field_3", .object [(.str "type", .str "number")])])]
  openNodes := .initial
  nextField := 1
  listeners := []

def addBetween : Operation := .addSiblingField (.array [.str "properties"]) (.str "field_1")

/-- A field is added and deleted, an addition fails, and the next field gets a name that was never there. -/
theorem newNames_fresh_skipping :
    numbered.newNames [addBetween,
        .deleteField (.array [.str "properties", .str "field_2"]) (.bool true),
        .addChildField (.array [.str "x", .str "y"]), addBetween] =
          [.str "field_2", .str "field_4"] ∧
      (numbered.perform addBetween).editor.nextField = 3 ∧
      (numbered.perform addBetween).editor.document.get [.str "properties", .str "field_3"] =
        .ok (.object [(.str "type", .str "number")]) ∧
      ∃ n, nextNumber (.object [(.str "field_1", .null)]) 1 = .ok n ∧ n ≤ 2 := by
  obtain ⟨-, hstep, hends⟩ := newNames_fresh numbered
  have hreply : (numbered.perform addBetween).reply = .ok (.str "field_2") := rfl
  obtain ⟨n, hname, hadds⟩ := hstep addBetween _ _ _ _ _ rfl rfl rfl hreply
  have hn : fieldName 2 = fieldName n := Scalar.str.inj (Value.scalar.inj hname)
  obtain rfl := Fields.fieldName_injective hn
  refine ⟨rfl, hadds.next, ?_, ?_⟩
  · exact hadds.kept (.str "field_3") _ rfl ⟨by simp, by simp⟩
  · obtain ⟨n, hn, hle, -⟩ := hends [(.str "field_1", .null)] 1
    exact ⟨n, hn, hle⟩

/-- Two entries that are not left alone: the required names of the document, when a field is added to the
document itself, and a mapping in the place of required names, when the field is to come after a key that is
no number. -/
theorem addSiblingField_changes_entries :
    (∃ editor, Editor.new (some (.object [(.str "type", .str "object"), (.str "properties", .object []),
          (.str "required", .array [.str "a"])])) = .ok editor ∧
        (editor.perform (.addSiblingField (.array []) .null)).reply = .ok (.str "field_1") ∧
        editor.document.get [.str "required"] = .ok (.array [.str "a"]) ∧
        (editor.perform (.addSiblingField (.array []) .null)).editor.document.get [.str "required"] =
          .ok (.array [.str "a", .str "field_1"])) ∧
      ∃ start editor, Editor.new (some (.object [(.str "type", .str "object"),
          (.str "properties", .object []), (.str "required", .object [(.str "a", .int 1)])])) = .ok start ∧
        editor = (start.perform
          (.setValue (.array [.str "required", .float .nan]) (.int 1))).editor ∧
        (editor.perform (.addSiblingField (.array [.str "required"]) (.float .nan))).reply =
          .ok (.str "field_1") ∧
        editor.document.get [.str "required", .str "a"] = .ok (.int 1) ∧
        (editor.perform (.addSiblingField (.array [.str "required"]) (.float .nan))).editor.document.get
          [.str "required"] = .ok (.array [.str "a", .float .nan, .str "field_1"]) := by
  constructor
  · exact ⟨_, rfl, rfl, rfl, rfl⟩
  · exact ⟨_, _, rfl, rfl, rfl, rfl, rfl⟩

end Editor

end SchemaForge
