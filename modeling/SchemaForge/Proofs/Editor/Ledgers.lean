import SchemaForge.Proofs.Editor.Drafts

/-!
What drafts use up. Numbers for new fields are taken and never given back, and notices are put after those that
are there; neither whether a draft fails nor what it answers depends on the notices so far.
-/

namespace SchemaForge

namespace Draft

variable {α β : Type}

/-- A draft that takes numbers from `n` on, up to one that is not below `n`, and adds what it tells to whatever
was told before. -/
def Advances (x : Draft α) : Prop :=
  ∀ n, ∃ r m told, n ≤ m ∧ ∀ before, x.run.run ⟨n, before⟩ = (r, ⟨m, before ++ told⟩)

theorem advances_of_run {x : Draft α} {r : Except Fault α} (h : ∀ s, x.run.run s = (r, s)) : x.Advances :=
  fun n => ⟨r, n, [], Nat.le_refl n, fun before => by rw [h, List.append_nil]⟩

theorem advances_pure (a : α) : (pure a : Draft α).Advances := advances_of_run fun _ => rfl

theorem advances_throw (e : Fault) : (throw e : Draft α).Advances := advances_of_run fun _ => rfl

theorem advances_lift (e : Except Fault α) : (liftM e : Draft α).Advances := by
  refine advances_of_run (r := e) fun s => ?_
  cases e <;> rfl

theorem advances_tell (notice : Notice) : (tell notice).Advances :=
  fun n => ⟨.ok (), n, [notice], Nat.le_refl n, fun _ => rfl⟩

theorem Advances.bind {x : Draft α} {f : α → Draft β} (hx : x.Advances)
    (hf : ∀ a, (f a).Advances) : (x >>= f).Advances := by
  intro n
  obtain ⟨r, m, told, hle, hrun⟩ := hx n
  cases r with
  | error fault => exact ⟨.error fault, m, told, hle, fun before => by rw [run_bind, hrun]⟩
  | ok a =>
      obtain ⟨r, m', told', hle', hrun'⟩ := hf a m
      refine ⟨r, m', told ++ told', Nat.le_trans hle hle', fun before => ?_⟩
      rw [run_bind, hrun, ← List.append_assoc]
      exact hrun' _

theorem Advances.ite {p : Prop} [Decidable p] {x y : Draft α} (hx : x.Advances)
    (hy : y.Advances) : (if p then x else y).Advances := by
  split
  · exact hx
  · exact hy

theorem advances_takeName (taken : Value) : (takeName taken).Advances := by
  intro n
  cases hn : Fields.nextNumber taken n with
  | ok number =>
      have hle : n ≤ number := Fields.le_freeNumber hn
      refine ⟨.ok (Fields.fieldName number), number + 1, [], Nat.le_trans hle (Nat.le_succ _), fun before => ?_⟩
      simp only [run_takeName, hn, List.append_nil]
  | error fault =>
      refine ⟨.error fault, n + 1, [], Nat.le_succ n, fun before => ?_⟩
      simp only [run_takeName, hn, List.append_nil]

/-! ### Operations -/

section Operations

variable (doc : Value) (nodes : OpenNodes) (path : Path)

theorem advances_replaceDocument (root : Value) : (replaceDocument nodes root).Advances := by
  refine (advances_lift _).bind fun new => (advances_lift _).bind fun type => ?_
  exact (advances_tell _).bind fun _ => advances_pure _

theorem advances_setAllRequired (required : Value) :
    (setAllRequired doc nodes required).Advances := by
  refine (advances_tell _).bind fun _ => ?_
  exact (advances_lift _).bind fun new => advances_pure _

theorem advances_setValue (v : Value) : (setValue doc nodes path v).Advances := by
  unfold setValue
  split
  · refine (advances_lift _).bind fun held => ?_
    split
    · refine (advances_tell _).bind fun _ => ?_
      exact (advances_lift _).bind fun new => advances_pure _
    · exact (advances_lift _).bind fun _ => advances_pure _
  · refine (advances_tell _).bind fun _ => ?_
    exact (advances_lift _).bind fun new => advances_pure _

theorem advances_setType (type : Value) : (setType doc nodes path type).Advances := by
  refine (advances_lift _).bind fun node => (advances_lift _).bind fun old => ?_
  split
  · exact advances_pure _
  · refine (advances_lift _).bind fun shape => (advances_lift _).bind fun description => ?_
    refine (advances_tell _).bind fun _ => ?_
    exact (advances_lift _).bind fun new => advances_pure _

theorem advances_rename (old new : Value) : (rename doc nodes path old new).Advances := by
  refine (advances_lift _).bind fun props => ?_
  split
  · exact advances_pure _
  · refine (advances_lift _).bind fun ms => (advances_lift _).bind fun newKey => ?_
    split
    · exact (advances_tell _).bind fun _ => advances_pure _
    · refine (advances_lift _).bind fun oldKey => ?_
      split
      · exact advances_throw _
      · refine (advances_lift _).bind fun moved => (advances_lift _).bind fun named => ?_
        exact (advances_tell _).bind fun _ => advances_pure _

theorem advances_toggleRequired (name : Value) (required : Bool) :
    (toggleRequired doc nodes path name required).Advances :=
  (advances_lift _).bind fun _ => advances_pure _

theorem advances_deleteField (prune : Bool) : (deleteField doc nodes path prune).Advances := by
  refine (advances_lift _).bind fun node => (advances_lift _).bind fun removed => ?_
  exact (advances_lift _).bind fun pruned => (advances_tell _).bind fun _ => advances_pure _

theorem advances_addSiblingField (after : Value) :
    (addSiblingField doc nodes path after).Advances := by
  refine (advances_lift _).bind fun props => .ite ((advances_lift _).bind fun held =>
    .ite ((advances_throw _).bind fun _ => ?_) ?_) ?_
  -- Whatever is asked about `after`, the field is added in the same way.
  all_goals
    refine (advances_takeName _).bind fun name => .ite ?_ ?_
  all_goals
    refine (advances_lift _).bind fun old => (advances_pure _).bind fun ms => ?_
    refine (advances_lift _).bind fun added => (advances_lift _).bind fun required => ?_
    exact (advances_tell _).bind fun _ => advances_pure _

theorem advances_addChildField : (addChildField doc nodes path).Advances := by
  refine (advances_lift _).bind fun owner => (advances_lift _).bind fun held => ?_
  refine .ite ((advances_lift _).bind fun props => ?_) ((advances_pure _).bind fun props => ?_)
  all_goals
    refine (advances_takeName _).bind fun name => (advances_lift _).bind fun ms => ?_
    refine (advances_lift _).bind fun added => (advances_lift _).bind fun required => ?_
    exact (advances_tell _).bind fun _ => advances_pure _

theorem advances_toggleOpen (value : Value) : (toggleOpen nodes path value).Advances :=
  advances_pure _

end Operations

theorem advances_draft (operation : Operation) (doc : Value) (nodes : OpenNodes) :
    (operation.draft doc nodes).Advances := by
  cases operation with
  | replaceDocument root => exact advances_replaceDocument nodes root
  | setValue path v => exact (advances_lift _).bind fun p => advances_setValue doc nodes p v
  | setMock path directive =>
      exact (advances_lift _).bind fun p => advances_setValue doc nodes _ _
  | setType path type => exact (advances_lift _).bind fun p => advances_setType doc nodes p type
  | rename path old new =>
      exact (advances_lift _).bind fun p => advances_rename doc nodes p old new
  | toggleRequired path name required =>
      exact (advances_lift _).bind fun p => advances_toggleRequired doc nodes p name _
  | setAllRequired required => exact advances_setAllRequired doc nodes required
  | deleteField path prune =>
      exact (advances_lift _).bind fun p => advances_deleteField doc nodes p _
  | addSiblingField path after =>
      exact (advances_lift _).bind fun p => advances_addSiblingField doc nodes p after
  | addChildField path =>
      exact (advances_lift _).bind fun p => advances_addChildField doc nodes p
  | toggleOpen path value =>
      exact (advances_lift _).bind fun p => advances_toggleOpen nodes p value

end Draft

end SchemaForge
