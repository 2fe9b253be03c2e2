import SchemaForge.Proofs.Editor.Drafting
import SchemaForge.Proofs.Editor.FieldNames

/-!
Reading off what a draft that succeeds has done. A draft is a computation that may fail and that changes a
ledger along the way; `Yields` says with which answer and which ledger one ends, and there is one rule for
each way in which drafts are put together. With these each operation is inverted once: its lemma gives all
that was looked up, checked and worked out on the way to its change.
-/

namespace SchemaForge.Draft

variable {α β : Type}

/-- A draft that begins with the ledger `s` ends with the answer `a` and the ledger `t`. -/
def Yields (x : Draft α) (s : Ledger) (a : α) (t : Ledger) : Prop := x.run.run s = (.ok a, t)

/-! ### Rules -/

@[simp] theorem yields_pure_iff {s t : Ledger} {a b : α} :
    (pure a : Draft α).Yields s b t ↔ b = a ∧ t = s := by
  constructor
  · intro h
    cases h
    exact ⟨rfl, rfl⟩
  · rintro ⟨rfl, rfl⟩
    rfl

theorem run_bind (x : Draft α) (f : α → Draft β) (s : Ledger) :
    (x >>= f).run.run s =
      match x.run.run s with
      | (.ok a, u) => (f a).run.run u
      | (.error e, u) => (.error e, u) := by
  simp only [ExceptT.run_bind, StateT.run_bind]
  rcases x.run.run s with ⟨_ | _, _⟩ <;> rfl

theorem yields_bind_iff {x : Draft α} {f : α → Draft β} {s t : Ledger} {b : β} :
    (x >>= f).Yields s b t ↔ ∃ a u, x.Yields s a u ∧ (f a).Yields u b t := by
  rw [Yields, run_bind]
  unfold Yields
  generalize x.run.run s = r
  obtain ⟨_ | a, u⟩ := r
  · constructor
    · intro h
      cases h
    · rintro ⟨a, u', h, -⟩
      cases h
  · constructor
    · exact fun h => ⟨a, u, rfl, h⟩
    · rintro ⟨a', u', h, hf⟩
      cases h
      exact hf

@[simp] theorem yields_lift_iff {e : Except Fault α} {s t : Ledger} {a : α} :
    (liftM e : Draft α).Yields s a t ↔ e = .ok a ∧ t = s := by
  constructor
  · intro h
    cases e with
    | error fault => cases h
    | ok b =>
        cases h
        exact ⟨rfl, rfl⟩
  · rintro ⟨rfl, rfl⟩
    rfl

@[simp] theorem lift_ok_bind (a : α) (f : α → Draft β) :
    (liftM (Except.ok a : Except Fault α) >>= f : Draft β) = f a := rfl

@[simp] theorem yields_tell_iff {n : Notice} {s t : Ledger} {u : Unit} :
    (tell n).Yields s u t ↔ t = { s with notices := s.notices ++ [n] } := by
  constructor
  · intro h
    cases h
    rfl
  · rintro rfl
    rfl

@[simp] theorem not_yields_throw {e : Fault} {s t : Ledger} {a : α} :
    ¬ (throw e : Draft α).Yields s a t := by
  intro h
  cases h

theorem run_takeName (taken : Value) (s : Ledger) :
    (takeName taken).run.run s =
      match Fields.nextNumber taken s.nextField with
      | .ok n => (.ok (Fields.fieldName n), { s with nextField := n + 1 })
      | .error e => (.error e, { s with nextField := s.nextField + 1 }) := by
  unfold takeName
  rw [run_bind]
  change (match Fields.nextNumber taken s.nextField with
    | .ok n => _
    | .error e => _ : Draft String).run.run s = _
  cases Fields.nextNumber taken s.nextField <;> rfl

theorem yields_takeName_iff {taken : Value} {s t : Ledger} {name : String} :
    (takeName taken).Yields s name t ↔
      ∃ n, Fields.nextNumber taken s.nextField = .ok n ∧ name = Fields.fieldName n ∧
        t = { s with nextField := n + 1 } := by
  rw [Yields, run_takeName]
  cases Fields.nextNumber taken s.nextField with
  | error e =>
      constructor
      · intro h
        cases h
      · rintro ⟨m, hm, -⟩
        cases hm
  | ok n =>
      constructor
      · intro h
        cases h
        exact ⟨n, rfl, rfl, rfl⟩
      · rintro ⟨m, hm, rfl, rfl⟩
        cases hm
        rfl

theorem yields_tell_bind_iff {n : Notice} {f : Unit → Draft α} {s t : Ledger} {a : α} :
    (tell n >>= f).Yields s a t ↔ (f ()).Yields { s with notices := s.notices ++ [n] } a t := Iff.rfl

theorem yields_takeName_bind_iff {taken : Value} {f : String → Draft α} {s t : Ledger} {a : α} {n : Nat}
    (hn : Fields.nextNumber taken s.nextField = .ok n) :
    (takeName taken >>= f).Yields s a t ↔
      (f (Fields.fieldName n)).Yields { s with nextField := n + 1 } a t := by
  rw [Yields, run_bind, run_takeName, hn]
  rfl

/-! ### Operations -/

section Operations

variable {doc : Value} {nodes : OpenNodes} {path : Path} {s t : Ledger} {c : Change}

theorem exists_of_replaceDocument {root : Value}
    (h : (replaceDocument nodes root).Yields s c t) :
    ∃ ms, root = .object ms ∧ c = commit nodes (Schema.normalize (.object ms)) := by
  simp only [replaceDocument, yields_bind_iff, yields_tell_iff, yields_lift_iff,
    yields_pure_iff] at h
  obtain ⟨new, _, ⟨hnew, -⟩, -, -, -, -, -, -, rfl, -⟩ := h
  cases root with
  | object ms =>
      cases hnew
      exact ⟨ms, rfl, rfl⟩
  | _ => simp [prepare] at hnew

/-- A blank value removes what is there, if anything is; any other one is written. -/
theorem exists_of_setValue {v : Value} (h : (setValue doc nodes path v).Yields s c t) :
    (isBlankValue v = true ∧ c = nothing nodes .null) ∨
      (isBlankValue v = true ∧ ∃ new, doc.remove path = .ok new ∧ c = commit nodes new) ∨
      (isBlankValue v = false ∧ ∃ new, doc.set path v = .ok new ∧ c = commit nodes new) := by
  unfold setValue at h
  split at h
  · next hblank =>
      obtain ⟨held, _, hheld, h⟩ := yields_bind_iff.mp h
      cases held with
      | true =>
          simp only [if_true, yields_bind_iff, yields_tell_iff, yields_lift_iff,
            yields_pure_iff] at h
          obtain ⟨-, -, -, new, -, ⟨hnew, -⟩, rfl, -⟩ := h
          exact .inr (.inl ⟨hblank, new, hnew, rfl⟩)
      | false =>
          simp only [Bool.false_eq_true, if_false, yields_bind_iff, yields_lift_iff,
            yields_pure_iff] at h
          obtain ⟨-, -, -, rfl, -⟩ := h
          exact .inl ⟨hblank, rfl⟩
  · next hblank =>
      simp only [yields_bind_iff, yields_tell_iff, yields_lift_iff, yields_pure_iff] at h
      obtain ⟨-, -, -, new, -, ⟨hnew, -⟩, rfl, -⟩ := h
      exact .inr (.inr ⟨Bool.eq_false_iff.mpr hblank, new, hnew, rfl⟩)

theorem exists_of_setAllRequired {required : Value}
    (h : (setAllRequired doc nodes required).Yields s c t) :
    (∃ ms, doc = .object ms) ∧ c = commit nodes (Schema.switchRequired required.truthy doc) := by
  simp only [setAllRequired, yields_bind_iff, yields_tell_iff, yields_lift_iff,
    yields_pure_iff] at h
  obtain ⟨-, -, -, new, _, ⟨hnew, -⟩, rfl, -⟩ := h
  obtain ⟨ms, hms, hnew⟩ := bind_eq_ok_iff.mp hnew
  cases hnew
  cases doc with
  | object ns => exact ⟨⟨ns, rfl⟩, rfl⟩
  | _ => simp [Value.members] at hms

theorem exists_of_setType {type : Value} (h : (setType doc nodes path type).Yields s c t) :
    ∃ node old, doc.get path = .ok node ∧ node.getOrNull "type" = .ok old ∧
      (c = nothing nodes .null ∨
        ∃ shape description new, Schema.ofType type = .ok shape ∧
          node.getOrNull "description" = .ok description ∧
          doc.set path (if description.truthy then shape.setChild (.str "description") description
            else shape) = .ok new ∧ c = commit nodes new) := by
  simp only [setType, yields_bind_iff, yields_lift_iff] at h
  obtain ⟨node, _, ⟨hnode, rfl⟩, old, _, ⟨hold, rfl⟩, h⟩ := h
  refine ⟨node, old, hnode, hold, ?_⟩
  split at h
  · exact .inl (yields_pure_iff.mp h).1
  · simp only [yields_bind_iff, yields_tell_iff, yields_lift_iff, yields_pure_iff] at h
    obtain ⟨shape, _, ⟨hshape, rfl⟩, description, _, ⟨hdescription, rfl⟩, h⟩ := h
    obtain ⟨-, _, -, new, _, ⟨hnew, -⟩, rfl, -⟩ := h
    exact .inr ⟨shape, description, new, hshape, hdescription, hnew, rfl⟩

/-- A rename that succeeds found the new name taken, or else the old one present. -/
theorem exists_of_rename {old new : Value} (h : (rename doc nodes path old new).Yields s c t) :
    ∃ props, doc.get path = .ok props ∧
      (c = nothing nodes (.bool false) ∨
        ∃ ms oldKey newKey node moved named, props.members = .ok ms ∧ old.key = .ok oldKey ∧
          new.key = .ok newKey ∧ (Members.find? newKey ms).getD .null = .null ∧
          Members.find? oldKey ms = some node ∧
          doc.set path (.object (Fields.renameKey old newKey ms)) = .ok moved ∧
          Fields.renameRequired moved path old new = .ok named ∧
          new.equals old = false ∧
          c = ⟨some named, renamedNodes nodes path old new node, .bool true⟩) := by
  simp only [rename, yields_bind_iff, yields_lift_iff] at h
  obtain ⟨props, _, ⟨hprops, rfl⟩, h⟩ := h
  refine ⟨props, hprops, ?_⟩
  split at h
  · exact .inl (yields_pure_iff.mp h).1
  · next hequals =>
      simp only [yields_bind_iff, yields_lift_iff] at h
      obtain ⟨ms, _, ⟨hms, rfl⟩, newKey, _, ⟨hnewKey, rfl⟩, h⟩ := h
      split at h
      · simp only [yields_bind_iff, yields_pure_iff] at h
        obtain ⟨-, -, -, rfl, -⟩ := h
        exact .inl rfl
      · next htaken =>
          simp only [yields_bind_iff, yields_lift_iff] at h
          obtain ⟨oldKey, _, ⟨holdKey, rfl⟩, h⟩ := h
          split at h
          · exact absurd h not_yields_throw
          · next node hnode =>
              simp only [yields_bind_iff, yields_lift_iff, yields_tell_iff, yields_pure_iff] at h
              obtain ⟨moved, _, ⟨hmoved, rfl⟩, named, _, ⟨hnamed, rfl⟩, -, -, -, rfl, -⟩ := h
              exact .inr ⟨ms, oldKey, newKey, node, moved, named, hms, holdKey, hnewKey,
                by simpa using htaken, hnode, hmoved, hnamed, Bool.eq_false_iff.mpr hequals, rfl⟩

theorem exists_of_toggleRequired {name : Value} {required : Bool}
    (h : (toggleRequired doc nodes path name required).Yields s c t) :
    ∃ o, Fields.setRequired doc path name required = .ok o ∧ c = ⟨o, nodes, .null⟩ := by
  simp only [toggleRequired, yields_bind_iff, yields_lift_iff, yields_pure_iff] at h
  obtain ⟨o, _, ⟨ho, -⟩, rfl, -⟩ := h
  exact ⟨o, ho, rfl⟩

/-- Deleting what a path leads to, and perhaps the last segment of the path from the required names. -/
theorem exists_of_delete {prune : Bool} (h : (deleteField doc nodes path prune).Yields s c t) :
    ∃ removed, doc.remove path = .ok removed ∧
      (c = commit nodes removed ∨
        ∃ name pruned, Fields.withRequired removed path.dropLast name false = .ok pruned ∧
          c = commit nodes pruned) := by
  simp only [deleteField, yields_bind_iff, yields_lift_iff, yields_tell_iff, yields_pure_iff] at h
  obtain ⟨node, _, ⟨-, rfl⟩, removed, _, ⟨hremoved, rfl⟩, pruned, _, ⟨hpruned, -⟩, -, -, -, rfl, -⟩ := h
  refine ⟨removed, hremoved, ?_⟩
  unfold Fields.pruneRequired at hpruned
  split at hpruned
  · split at hpruned
    · exact .inr ⟨_, pruned, hpruned, rfl⟩
    · cases hpruned
      exact .inl rfl
  · cases hpruned
    exact .inl rfl

/-- Deleting a field with its name among the required ones. -/
theorem exists_of_deleteField {owner : Path} {name : Value}
    (h : (deleteField doc nodes (owner ++ [.str "properties", name]) true).Yields s c t) :
    ∃ node removed pruned, doc.get (owner ++ [.str "properties", name]) = .ok node ∧
      doc.remove (owner ++ [.str "properties", name]) = .ok removed ∧
      Fields.withRequired removed (owner ++ [.str "properties"]) name false = .ok pruned ∧
      c = commit nodes pruned := by
  simp only [deleteField, yields_bind_iff, yields_lift_iff, Fields.pruneRequired_field, if_true,
    yields_tell_iff, yields_pure_iff] at h
  obtain ⟨node, _, ⟨hnode, rfl⟩, removed, _, ⟨hremoved, rfl⟩, pruned, _, ⟨hpruned, rfl⟩, -, -, -,
    rfl, -⟩ := h
  exact ⟨node, removed, pruned, hnode, hremoved, hpruned, rfl⟩

def withField (props after : Value) (name : String) : Except Fault Members :=
  if after = .null then do
    return Members.insert (.str name) Schema.stringNode (← props.toMembers)
  else do
    return Fields.insertAfter after (.str name) Schema.stringNode (← props.members)

theorem exists_of_addSiblingField {after : Value}
    (h : (addSiblingField doc nodes path after).Yields s c t) :
    ∃ props number ms added required, doc.get path = .ok props ∧
      (after ≠ .null → props.holds after = .ok true) ∧
      Fields.nextNumber props s.nextField = .ok number ∧
      withField props after (Fields.fieldName number) = .ok ms ∧
      doc.set path (.object ms) = .ok added ∧
      Fields.withRequired added path (.str (Fields.fieldName number)) true = .ok required ∧
      c = ⟨some required, nodes, .str (Fields.fieldName number)⟩ ∧ t.nextField = number + 1 := by
  simp only [addSiblingField, yields_bind_iff, yields_lift_iff] at h
  obtain ⟨props, _, ⟨hprops, rfl⟩, h⟩ := h
  -- Without a field to come after, the new one goes to the end and nothing is checked.
  by_cases hafter : after = .null
  · subst hafter
    simp only [ne_eq, not_true_eq_false, if_false, if_true, yields_bind_iff, yields_lift_iff,
      yields_takeName_iff, yields_tell_iff, yields_pure_iff] at h
    obtain ⟨_, _, ⟨number, hnumber, rfl, rfl⟩, old, _, ⟨hold, rfl⟩, _, _, ⟨rfl, rfl⟩, added, _,
      ⟨hadded, rfl⟩, required, _, ⟨hrequired, rfl⟩, -, _, rfl, rfl, rfl⟩ := h
    exact ⟨props, number, _, added, required, hprops, by simp, hnumber, by simp [withField, hold],
      hadded, hrequired, rfl, rfl⟩
  · simp only [ne_eq, hafter, not_false_eq_true, if_false, if_true, yields_bind_iff,
      yields_lift_iff] at h
    obtain ⟨held, _, ⟨hheld, rfl⟩, h⟩ := h
    cases held with
    | false =>
        simp only [Bool.not_false, if_true, yields_bind_iff, not_yields_throw, false_and,
          exists_false] at h
    | true =>
        simp only [Bool.not_true, Bool.false_eq_true, if_false, yields_bind_iff, yields_lift_iff,
          yields_takeName_iff, yields_tell_iff, yields_pure_iff] at h
        obtain ⟨_, _, ⟨number, hnumber, rfl, rfl⟩, old, _, ⟨hold, rfl⟩, _, _, ⟨rfl, rfl⟩, added, _,
          ⟨hadded, rfl⟩, required, _, ⟨hrequired, rfl⟩, -, _, rfl, rfl, rfl⟩ := h
        exact ⟨props, number, _, added, required, hprops, fun _ => hheld, hnumber,
          by simp [withField, hafter, hold], hadded, hrequired, rfl, rfl⟩

theorem exists_of_addChildField (h : (addChildField doc nodes path).Yields s c t) :
    ∃ owner props number old added required, doc.get path.dropLast = .ok owner ∧
      (doc.has path = .ok true ∧ doc.get path = .ok props ∨
        doc.has path = .ok false ∧ props = .object []) ∧
      Fields.nextNumber props s.nextField = .ok number ∧
      props.toMembers = .ok old ∧
      doc.set path (.object (Members.insert (.str (Fields.fieldName number)) Schema.stringNode old)) =
        .ok added ∧
      Fields.withRequired added path (.str (Fields.fieldName number)) true = .ok required ∧
      c = ⟨some required, OpenNodes.insert path.join true nodes, .str (Fields.fieldName number)⟩ ∧
      t.nextField = number + 1 := by
  simp only [addChildField, yields_bind_iff, yields_lift_iff] at h
  obtain ⟨owner, _, ⟨howner, rfl⟩, held, _, ⟨hheld, rfl⟩, h⟩ := h
  cases held with
  | true =>
      simp only [if_true, yields_bind_iff, yields_lift_iff, yields_takeName_iff, yields_tell_iff,
        yields_pure_iff] at h
      obtain ⟨props, _, ⟨hprops, rfl⟩, _, _, ⟨number, hnumber, rfl, rfl⟩, old, _, ⟨hold, rfl⟩, added,
        _, ⟨hadded, rfl⟩, required, _, ⟨hrequired, rfl⟩, -, _, rfl, rfl, rfl⟩ := h
      exact ⟨owner, props, number, old, added, required, howner, .inl ⟨hheld, hprops⟩, hnumber, hold,
        hadded, hrequired, rfl, rfl⟩
  | false =>
      simp only [Bool.false_eq_true, if_false, yields_bind_iff, yields_lift_iff,
        yields_takeName_iff, yields_tell_iff, yields_pure_iff] at h
      obtain ⟨_, _, ⟨rfl, rfl⟩, _, _, ⟨number, hnumber, rfl, rfl⟩, old, _, ⟨hold, rfl⟩, added,
        _, ⟨hadded, rfl⟩, required, _, ⟨hrequired, rfl⟩, -, _, rfl, rfl, rfl⟩ := h
      exact ⟨owner, _, number, old, added, required, howner, .inr ⟨hheld, rfl⟩, hnumber, hold,
        hadded, hrequired, rfl, rfl⟩

theorem document_of_toggleOpen {value : Value} (h : (toggleOpen nodes path value).Yields s c t) :
    c.document = none := by
  rw [toggleOpen, yields_pure_iff] at h
  rw [h.1]

end Operations

end SchemaForge.Draft
