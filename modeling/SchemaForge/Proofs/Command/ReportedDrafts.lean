import SchemaForge.Proofs.Command.Reported
import SchemaForge.Proofs.Editor.Steps
import SchemaForge.Proofs.Schema.Normalization

/-!
Which operations fail only with faults that are reported. An operation does if it is given objects wherever
it looks up a keyword: the node to retype, the fields to rename in, the owner of fields. Adding a field also
needs its fields to stand in no list, because the list would be their owner.
-/

namespace SchemaForge

open Command (isReported)

namespace Draft

variable {α β : Type}

/-! ### Rules -/

/-- A draft that begins with the ledger `s` ends with a fault. -/
def Fails (x : Draft α) (s : Ledger) (fault : Fault) : Prop := ∃ t, x.run.run s = (.error fault, t)

theorem fails_lift_iff {e : Except Fault α} {s : Ledger} {fault : Fault} :
    (liftM e : Draft α).Fails s fault ↔ e = .error fault := by
  cases e with
  | error found =>
      constructor
      · rintro ⟨t, h⟩
        cases h
        rfl
      · intro h
        cases h
        exact ⟨s, rfl⟩
  | ok a =>
      constructor
      · rintro ⟨t, h⟩
        cases h
      · intro h
        cases h

theorem fails_bind_iff {x : Draft α} {f : α → Draft β} {s : Ledger} {fault : Fault} :
    (x >>= f).Fails s fault ↔
      x.Fails s fault ∨ ∃ a u, x.Yields s a u ∧ (f a).Fails u fault := by
  unfold Fails Yields
  rw [run_bind]
  rcases x.run.run s with ⟨found | a, u⟩
  · constructor
    · rintro ⟨t, h⟩
      cases h
      exact .inl ⟨u, rfl⟩
    · rintro (⟨t, h⟩ | ⟨a, u', h, -⟩)
      · cases h
        exact ⟨u, rfl⟩
      · cases h
  · constructor
    · exact fun h => .inr ⟨a, u, rfl, h⟩
    · rintro (⟨t, h⟩ | ⟨a', u', h, hf⟩)
      · cases h
      · cases h
        exact hf

/-- A draft that fails with no other faults than such that are reported. -/
def Reports (x : Draft α) : Prop := ∀ s fault, x.Fails s fault → isReported fault = true

theorem reports_pure (a : α) : (pure a : Draft α).Reports := by
  rintro s fault ⟨t, h⟩
  cases h

theorem reports_throw {fault : Fault} (h : isReported fault = true) :
    (throw fault : Draft α).Reports := by
  rintro s found ⟨t, heq⟩
  cases heq
  exact h

theorem reports_tell (n : Notice) : (tell n).Reports := by
  rintro s fault ⟨t, h⟩
  cases h

theorem Reports.bind {x : Draft α} {f : α → Draft β} (hx : x.Reports)
    (hf : ∀ s a t, x.Yields s a t → (f a).Reports) : (x >>= f).Reports := by
  intro s fault h
  rcases fails_bind_iff.mp h with h | ⟨a, u, hyields, h⟩
  · exact hx s fault h
  · exact hf s a u hyields u fault h

theorem Reports.lift_bind {e : Except Fault α} {f : α → Draft β} (he : SchemaForge.Reports e)
    (hf : ∀ a, e = .ok a → (f a).Reports) : (liftM e >>= f : Draft β).Reports := by
  intro s fault h
  rcases fails_bind_iff.mp h with h | ⟨a, u, hyields, h⟩
  · exact he fault (fails_lift_iff.mp h)
  · exact hf a (yields_lift_iff.mp hyields).1 u fault h

theorem Reports.ite {p : Prop} [Decidable p] {x y : Draft α} (hx : p → x.Reports)
    (hy : ¬ p → y.Reports) : (if p then x else y).Reports := by
  split
  · next h => exact hx h
  · next h => exact hy h

theorem reports_takeName (taken : Value) : (takeName taken).Reports := by
  rintro s fault ⟨t, h⟩
  have hnext := Fields.reports_nextNumber taken s.nextField
  rw [run_takeName] at h
  split at h
  · cases h
  · next heq =>
      cases h
      exact hnext _ heq

end Draft

/-! ### Fields in a list -/

/-- A value that stands in a list of a document. -/
def InList (doc : Value) (path : Path) (v : Value) : Prop :=
  ∃ q s xs, path = q ++ [s] ∧ doc.get q = .ok (.array xs) ∧ doc.get path = .ok v

theorem InList.not_of_get {doc v w : Value} {path : Path} (hget : doc.get path = .ok v)
    (h : ¬ InList doc path v) : ¬ InList doc path w := by
  intro hw
  obtain ⟨_, _, _, -, -, hget'⟩ := id hw
  rw [hget] at hget'
  cases hget'
  exact h hw

namespace Value

variable {doc added : Value} {path : Path} {ms : Members}

/-- The owner of an object that was written is an object, unless the object was written into a list. -/
theorem isObject_owner_of_set (h : doc.set path (.object ms) = .ok added)
    (notInList : ∀ v, ¬ InList doc path v) {owner : Value}
    (howner : added.get path.dropLast = .ok owner) : owner.isObject = true := by
  induction path using List.reverseRecOn with
  | nil =>
      cases h
      cases howner
      rfl
  | append_singleton q s _ =>
      rw [set_snoc] at h
      obtain ⟨c, d, hc, hd, rfl⟩ := update_eq_ok_iff.mp h
      rw [List.dropLast_concat, get_put hc] at howner
      cases howner
      cases c with
      | scalar k => simp [writeLast] at hd
      | object ns =>
          obtain ⟨k, -, hd⟩ := bind_eq_ok_iff.mp hd
          cases hd
          rfl
      | array xs =>
          obtain ⟨old, hold, -⟩ := bind_eq_ok_iff.mp hd
          obtain ⟨o, ho, hsome⟩ := bind_eq_ok_iff.mp hold
          cases o with
          | none => simp at hsome
          | some v =>
              exact absurd ⟨q, s, xs, rfl, hc, get_snoc_eq_ok_iff.mpr ⟨_, hc, ho⟩⟩ (notInList v)

/-- The owner of a field that was removed is an object still. -/
theorem isObject_owner_of_remove {removed owner name : Value} {q : Path}
    (h : doc.remove (q ++ [.str "properties"] ++ [name]) = .ok removed)
    (howner : removed.get q = .ok owner) : owner.isObject = true := by
  rw [remove_snoc] at h
  obtain ⟨c, d, hc, -, rfl⟩ := update_eq_ok_iff.mp h
  obtain ⟨b, hb, hchild⟩ := get_snoc_eq_ok_iff.mp hc
  obtain ⟨ms, k, rfl, hk, hfind⟩ | ⟨xs, i, n, -, hindex, -⟩ := exists_of_child hchild
  · cases hk
    rw [put_snoc_object hb hfind, get_put hb] at howner
    cases howner
    rfl
  · cases hindex

end Value

/-! ### Operations -/

namespace Draft

open Value

variable {doc : Value} {nodes : OpenNodes} {path : Path}

theorem reports_replaceDocument (root : Value) : (replaceDocument nodes root).Reports := by
  have hprepare : SchemaForge.Reports (prepare root) := by
    cases root with
    | object ms => exact reports_ok _
    | _ => exact reports_error rfl
  refine .lift_bind hprepare fun new hnew => ?_
  have hobject : new.isObject = true := by
    cases root with
    | object ms =>
        cases hnew
        exact Schema.isObject_normalize _
    | _ => cases hnew
  refine .lift_bind (reports_getOrNull hobject _) fun type _ => ?_
  exact (reports_tell _).bind fun _ _ _ _ => reports_pure _

theorem reports_setAllRequired (required : Value) (hdoc : doc.isObject = true) :
    (setAllRequired doc nodes required).Reports := by
  refine (reports_tell _).bind fun _ _ _ _ => .lift_bind ?_ fun _ _ => reports_pure _
  exact (reports_members hdoc).bind fun _ _ => reports_ok _

theorem reports_setValue (v : Value) : (setValue doc nodes path v).Reports := by
  unfold setValue
  split
  · refine .lift_bind (reports_has _ _) fun held _ => .ite (fun _ => ?_) fun _ => ?_
    · refine (reports_tell _).bind fun _ _ _ _ => ?_
      exact .lift_bind (reports_remove _ _) fun _ _ => reports_pure _
    · exact .lift_bind (reports_get _ _) fun _ _ => reports_pure _
  · refine (reports_tell _).bind fun _ _ _ _ => ?_
    exact .lift_bind (reports_set _ _ _) fun _ _ => reports_pure _

theorem reports_setType {type : Value}
    (hnode : ∀ node, doc.get path = .ok node → node.isObject = true) :
    (setType doc nodes path type).Reports := by
  refine .lift_bind (reports_get _ _) fun node hget => ?_
  have hobject := hnode node hget
  refine .lift_bind (reports_getOrNull hobject _) fun old _ => .ite (fun _ => reports_pure _) fun _ => ?_
  refine .lift_bind (Schema.reports_ofType _) fun shape _ => ?_
  refine .lift_bind (reports_getOrNull hobject _) fun description _ => ?_
  refine (reports_tell _).bind fun _ _ _ _ => ?_
  exact .lift_bind (reports_set _ _ _) fun _ _ => reports_pure _

theorem reports_rename {old new : Value}
    (hfields : ∀ fields, doc.get path = .ok fields → new.equals old = false →
      fields.isObject = true) : (rename doc nodes path old new).Reports := by
  refine .lift_bind (reports_get _ _) fun fields hget => .ite (fun _ => reports_pure _) fun hdiffers => ?_
  have hobject := hfields fields hget (Bool.eq_false_iff.mpr hdiffers)
  refine .lift_bind (reports_members hobject) fun ms _ => ?_
  refine .lift_bind (reports_key _) fun newKey _ => .ite (fun _ => ?_) fun _ => ?_
  · exact (reports_tell _).bind fun _ _ _ _ => reports_pure _
  · refine .lift_bind (reports_key _) fun oldKey _ => ?_
    split
    · exact reports_throw rfl
    · refine .lift_bind (reports_set _ _ _) fun moved _ => ?_
      refine .lift_bind (Fields.reports_renameRequired _ _) fun named _ => ?_
      exact (reports_tell _).bind fun _ _ _ _ => reports_pure _

theorem reports_toggleRequired {name : Value} {required : Bool}
    (howner : ∀ owner, doc.get path.dropLast = .ok owner → owner.isObject = true) :
    (toggleRequired doc nodes path name required).Reports :=
  .lift_bind (Fields.reports_setRequired howner) fun _ _ => reports_pure _

theorem reports_pruneRequired {removed : Value} (h : doc.remove path = .ok removed) (prune : Bool) :
    SchemaForge.Reports (Fields.pruneRequired removed path prune) := by
  unfold Fields.pruneRequired
  split
  · next name rest hpath =>
      have hsplit : path = rest.reverse ++ [.str "properties"] ++ [name] := by
        rw [← List.reverse_inj, hpath]
        simp
      split
      · refine Fields.reports_withRequired fun owner howner => ?_
        rw [hsplit] at h howner
        rw [List.dropLast_concat, List.dropLast_concat] at howner
        exact isObject_owner_of_remove h howner
      · exact reports_ok _
  · exact reports_ok _

theorem reports_deleteField (prune : Bool) : (deleteField doc nodes path prune).Reports := by
  refine .lift_bind (reports_get _ _) fun node _ => ?_
  refine .lift_bind (reports_remove _ _) fun removed hremoved => ?_
  refine .lift_bind (reports_pruneRequired hremoved prune) fun pruned _ => ?_
  exact (reports_tell _).bind fun _ _ _ _ => reports_pure _

/-- Writing fields and requiring one of them is reported if the fields are not in a list. -/
theorem reports_addField {ms : Members} {name : Value} {next : Value → Draft Change}
    (notInList : ∀ v, ¬ InList doc path v) (hnext : ∀ new, (next new).Reports) :
    (do
      let added ← doc.set path (.object ms)
      let required ← Fields.withRequired added path name true
      next required : Draft Change).Reports := by
  refine .lift_bind (reports_set _ _ _) fun added hadded => ?_
  exact .lift_bind (Fields.reports_withRequired fun owner howner =>
    isObject_owner_of_set hadded notInList howner) fun required _ => hnext required

theorem reports_addSiblingField {after : Value}
    (hafter : ∀ fields, doc.get path = .ok fields → after ≠ .null → fields.holds after = .ok true →
      fields.isObject = true ∧ ¬ InList doc path fields)
    (hlast : ∀ fields ms, after = .null → fields.toMembers = .ok ms → ¬ InList doc path fields) :
    (addSiblingField doc nodes path after).Reports := by
  have hend : ∀ (name : String) (required : Value), (do
      tell (.addedField name path)
      return ⟨some required, nodes, .str name⟩ : Draft Change).Reports :=
    fun name required => (reports_tell _).bind fun _ _ _ _ => reports_pure _
  refine .lift_bind (reports_get _ _) fun fields hget => .ite (fun hgiven => ?_) fun hnull => ?_
  · refine .lift_bind (reports_holds _ _) fun held hheld => .ite (fun _ => ?_) fun htrue => ?_
    · exact (reports_throw rfl).bind fun _ _ _ hyields => absurd hyields not_yields_throw
    · obtain rfl : held = true := by simpa using htrue
      obtain ⟨hobject, hnot⟩ := hafter fields hget hgiven hheld
      refine (reports_takeName _).bind fun _ name _ _ => .ite (fun h => absurd h hgiven) fun _ => ?_
      refine .lift_bind (reports_members hobject) fun old _ => (reports_pure _).bind fun _ ms _ _ => ?_
      exact reports_addField (fun v => InList.not_of_get hget hnot) (hend name)
  · refine (reports_takeName _).bind fun _ name _ _ => .ite (fun _ => ?_) fun h => absurd h (by simpa using hnull)
    refine .lift_bind (reports_toMembers _) fun old hold => (reports_pure _).bind fun _ ms _ _ => ?_
    have hnot := hlast fields old (by simpa using hnull) hold
    exact reports_addField (fun v => InList.not_of_get hget hnot) (hend name)

theorem reports_addChildField
    (hlast : ∀ fields ms, fields.toMembers = .ok ms → ¬ InList doc path fields) :
    (addChildField doc nodes path).Reports := by
  have hend : ∀ (name : String) (required : Value), (do
      tell (.addedChild name path)
      return ⟨some required, OpenNodes.insert path.join true nodes, .str name⟩ :
        Draft Change).Reports :=
    fun name required => (reports_tell _).bind fun _ _ _ _ => reports_pure _
  refine .lift_bind (reports_get _ _) fun owner _ => .lift_bind (reports_has _ _) fun held hheld => ?_
  refine .ite (fun _ => ?_) fun hmissing => ?_
  · refine .lift_bind (reports_get _ _) fun fields hget => (reports_takeName _).bind fun _ name _ _ => ?_
    refine .lift_bind (reports_toMembers _) fun old hold => ?_
    exact reports_addField (fun v => InList.not_of_get hget (hlast fields old hold)) (hend name)
  · refine (reports_pure _).bind fun _ fields _ _ => (reports_takeName _).bind fun _ name _ _ => ?_
    refine .lift_bind (reports_toMembers _) fun old _ => reports_addField (fun v hlist => ?_) (hend name)
    -- Nothing stands there, in a list or elsewhere.
    obtain ⟨_, _, _, -, -, hget⟩ := hlist
    rw [Value.has, hget] at hheld
    exact hmissing (Except.ok.inj hheld).symm

end Draft

end SchemaForge
