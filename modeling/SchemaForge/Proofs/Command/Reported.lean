import SchemaForge.Command.Run
import SchemaForge.Proofs.Path.Lens

/-!
Which computations fail only with faults that are reported. Almost all do: looking up, writing and removing
along a path, searching a value, taking it for a list or a key. The exception is taking a value for an object
that is none, so whatever looks up a keyword reports its faults as long as it is given an object.
-/

namespace SchemaForge

open Command (isReported)

/-- A computation that fails with no other faults than such that are reported. -/
def Reports {α : Type} (x : Except Fault α) : Prop := ∀ fault, x = .error fault → isReported fault = true

/-! ### Rules -/

section Rules

variable {α β : Type}

theorem reports_ok (a : α) : Reports (.ok a) := by
  intro fault h
  cases h

theorem reports_error {fault : Fault} (h : isReported fault = true) :
    Reports (.error fault : Except Fault α) := by
  intro fault' heq
  cases heq
  exact h

theorem Reports.bind {x : Except Fault α} {f : α → Except Fault β} (hx : Reports x)
    (hf : ∀ a, x = .ok a → Reports (f a)) : Reports (x >>= f) := by
  cases x with
  | error fault => exact reports_error (hx fault rfl)
  | ok a => exact hf a rfl

theorem reports_mapM {f : α → Except Fault β} {xs : List α} (h : ∀ x ∈ xs, Reports (f x)) :
    Reports (xs.mapM f) := by
  induction xs with
  | nil => exact reports_ok _
  | cons x xs ih =>
      rw [List.mapM_cons]
      refine (h x List.mem_cons_self).bind fun y _ => ?_
      exact (ih fun z hz => h z (List.mem_cons_of_mem _ hz)).bind fun ys _ => reports_ok _

end Rules

/-! ### Values -/

namespace Value

theorem reports_elements (v : Value) : Reports v.elements := by
  cases v with
  | scalar s =>
      cases s with
      | str s => exact reports_ok _
      | _ => exact reports_error rfl
  | array xs => exact reports_ok _
  | object ms => exact reports_ok _

theorem reports_key (v : Value) : Reports v.key := by
  cases v with
  | scalar s => exact reports_ok _
  | _ => exact reports_error rfl

theorem isObject_iff {v : Value} : v.isObject = true ↔ ∃ ms, v = .object ms := by
  cases v <;> simp [isObject]

theorem reports_members {v : Value} (h : v.isObject = true) : Reports v.members := by
  obtain ⟨ms, rfl⟩ := isObject_iff.mp h
  exact reports_ok _

theorem reports_getOrNull {v : Value} (h : v.isObject = true) (name : String) :
    Reports (v.getOrNull name) :=
  ((reports_members h).bind fun _ _ => reports_ok _).bind fun _ _ => reports_ok _

theorem reports_holds (container needle : Value) : Reports (container.holds needle) := by
  cases container with
  | object ms => exact (reports_key needle).bind fun _ _ => reports_ok _
  | array xs => exact reports_ok _
  | scalar s =>
      cases s with
      | str s =>
          rcases needle with (_ | _ | _ | _ | _) | _ | _
          all_goals first | exact reports_ok _ | exact reports_error rfl
      | _ => exact reports_error rfl

theorem reports_pair (i : Nat) (v : Value) : Reports (v.pair i) := by
  unfold pair
  split
  · exact (reports_key _).bind fun _ _ => reports_ok _
  · exact reports_error rfl
  · exact reports_error rfl

theorem reports_toMembers (v : Value) : Reports v.toMembers := by
  unfold toMembers
  split
  · exact reports_ok _
  · refine (reports_elements v).bind fun xs _ => ?_
    exact (reports_mapM fun x _ => reports_pair _ _).bind fun _ _ => reports_ok _

/-! ### Walks -/

theorem reports_childAt (whole : Path) (depth : Nat) (container segment : Value) :
    Reports (childAt whole depth container segment) := by
  have hchild : Reports (container.child segment) := by
    cases container with
    | object ms => exact (reports_key segment).bind fun _ _ => reports_ok _
    | array xs =>
        unfold child
        dsimp only
        split <;> exact reports_ok _
    | scalar s => exact reports_ok _
  refine hchild.bind fun o _ => ?_
  cases o with
  | some v => exact reports_ok _
  | none => exact reports_error rfl

theorem reports_get (doc : Value) (path : Path) : Reports (doc.get path) := by
  rw [get]
  suffices h : ∀ (whole : Path) (depth : Nat) (doc : Value), Reports (getFrom whole depth doc path) from
    h path 0 doc
  induction path with
  | nil => exact fun _ _ _ => reports_ok _
  | cons s path ih =>
      intro whole depth doc
      exact (reports_childAt whole depth doc s).bind fun c _ => ih whole (depth + 1) c

theorem reports_has (doc : Value) (path : Path) : Reports (doc.has path) := by
  have hget := reports_get doc path
  unfold has
  split
  · exact reports_ok _
  · exact reports_ok _
  · next fault _ heq => exact reports_error (hget fault heq)

theorem reports_update {f : Value → Except Fault Value} (hf : ∀ v, Reports (f v)) (doc : Value)
    (path : Path) : Reports (doc.update path f) := by
  rw [update]
  suffices h : ∀ (whole : Path) (depth : Nat) (doc : Value),
      Reports (updateFrom whole f depth doc path) from h path 0 doc
  induction path with
  | nil => exact fun _ _ doc => hf doc
  | cons s path ih =>
      intro whole depth doc
      refine (reports_childAt whole depth doc s).bind fun c _ => ?_
      exact (ih whole (depth + 1) c).bind fun _ _ => reports_ok _

theorem reports_writeLast (whole : Path) (last v container : Value) :
    Reports (writeLast whole last v container) := by
  cases container with
  | object ms => exact (reports_key last).bind fun _ _ => reports_ok _
  | array xs => exact (reports_childAt _ _ _ _).bind fun _ _ => reports_ok _
  | scalar s => exact reports_error rfl

theorem reports_eraseLast (whole : Path) (last container : Value) :
    Reports (eraseLast whole last container) := by
  cases container with
  | object ms => exact reports_ok _
  | array xs =>
      refine (reports_childAt _ _ _ _).bind fun _ _ => ?_
      split <;> exact reports_ok _
  | scalar s => exact reports_error rfl

theorem reports_set (doc : Value) (path : Path) (v : Value) : Reports (doc.set path v) := by
  rw [set]
  split
  · exact reports_ok _
  · exact reports_update (reports_writeLast _ _ v) _ _

theorem reports_remove (doc : Value) (path : Path) : Reports (doc.remove path) := by
  rw [remove]
  split
  · exact reports_error rfl
  · exact reports_update (reports_eraseLast _ _) _ _

end Value

theorem Schema.reports_ofType (type : Value) : Reports (Schema.ofType type) := by
  refine (Value.reports_key type).bind fun k _ => ?_
  split
  · split
    · exact reports_ok _
    · exact reports_error rfl
  · exact reports_error rfl

/-! ### Required names and new fields -/

namespace Fields

open Value

variable {doc : Value} {path : Path} {name : Value}

theorem reports_requiredNames {owner : Value} (h : owner.isObject = true) :
    Reports (requiredNames owner) := by
  refine (reports_getOrNull h "required").bind fun listed _ => ?_
  split
  · exact reports_elements _
  · exact reports_ok _

/-- Changing the required names fails unreported only if the owner of the fields is no object. -/
theorem reports_setRequired {required : Bool}
    (h : ∀ owner, doc.get path.dropLast = .ok owner → owner.isObject = true) :
    Reports (setRequired doc path name required) := by
  refine (reports_get _ _).bind fun owner howner => ?_
  refine (reports_requiredNames (h owner howner)).bind fun names _ => ?_
  dsimp only
  split
  · split
    · exact (reports_remove _ _).bind fun _ _ => reports_ok _
    · exact (reports_set _ _ _).bind fun _ _ => reports_ok _
  · split
    · exact (reports_set _ _ _).bind fun _ _ => reports_ok _
    · exact reports_ok _

theorem reports_withRequired {required : Bool}
    (h : ∀ owner, doc.get path.dropLast = .ok owner → owner.isObject = true) :
    Reports (withRequired doc path name required) :=
  (reports_setRequired h).bind fun _ _ => reports_ok _

/-- Renaming a required name asks first whether there are any, of whatever the owner is. -/
theorem reports_renameRequired (old new : Value) : Reports (renameRequired doc path old new) := by
  refine (reports_get _ _).bind fun owner _ => (reports_holds owner _).bind fun held _ => ?_
  split
  · split
    · exact (reports_elements _).bind fun _ _ => reports_set _ _ _
    · exact reports_error rfl
  · exact reports_ok _

theorem reports_nextNumber (taken : Value) (number : Nat) : Reports (nextNumber taken number) := by
  rw [nextNumber]
  suffices h : ∀ (fuel number : Nat), Reports (freeNumber taken fuel number) from h _ _
  intro fuel
  induction fuel with
  | zero => exact fun _ => reports_ok _
  | succ fuel ih =>
      intro number
      refine (reports_holds taken _).bind fun held _ => ?_
      split
      · exact ih _
      · exact reports_ok _

end Fields

/-! ### Descriptions of operations -/

namespace Path

theorem reports_readIndex (ds : List Char) : Reports (readIndex ds) := by
  unfold readIndex
  dsimp only
  split
  · exact reports_error rfl
  · split
    · exact reports_ok _
    · exact reports_error rfl

theorem reports_readPiece (text : String) (cs : List Char) : Reports (readPiece text cs) := by
  unfold readPiece
  split
  · dsimp only
    split
    · exact reports_error rfl
    · split
      · exact reports_error rfl
      · exact (reports_readIndex _).bind fun _ _ => reports_ok _
  · split
    · exact reports_error rfl
    · exact reports_ok _

theorem reports_parse (text : String) : Reports (parse text) := by
  rw [parse]
  suffices h : ∀ (fuel : Nat) (cs : List Char), Reports (readPieces text fuel cs) from h _ _
  intro fuel
  induction fuel with
  | zero => exact fun _ => by rw [readPieces]; exact reports_ok _
  | succ fuel ih =>
      intro cs
      cases cs with
      | nil => exact reports_ok _
      | cons c cs =>
          refine (reports_readPiece text _).bind fun piece _ => ?_
          exact (ih _).bind fun _ _ => reports_ok _

end Path

namespace Operation

theorem reports_argument (name : String) (v : Value) : Reports (argument name v) := by
  unfold argument
  split
  · split
    · exact (Path.reports_parse _).bind fun _ _ => reports_ok _
    · exact reports_ok _
  · exact reports_ok _

theorem reports_arguments {ms : Members} (text : ∀ m ∈ ms, m.1.IsText) : Reports (arguments ms) := by
  induction ms with
  | nil => exact reports_ok _
  | cons m ms ih =>
      obtain ⟨k, v⟩ := m
      obtain ⟨name, rfl⟩ := text _ List.mem_cons_self
      have hrest := ih fun n hn => text n (List.mem_cons_of_mem _ hn)
      rw [arguments]
      split
      · exact hrest
      · exact (reports_argument name v).bind fun _ _ => hrest.bind fun _ _ => reports_ok _

theorem reports_checkKnown (name : Name) (args : List (String × Value)) :
    Reports (checkKnown name args) := by
  induction args with
  | nil => exact reports_ok _
  | cons arg args ih =>
      obtain ⟨a, v⟩ := arg
      rw [checkKnown]
      split
      · exact reports_error rfl
      · split
        · exact ih
        · exact reports_error rfl

/-- An object that describes no operation is reported. -/
theorem reports_ofValue {v : Value} (isObject : v.isObject = true) (hv : v.IsJson) :
    Reports (ofValue v) := by
  obtain ⟨ms, rfl⟩ := Value.isObject_iff.mp isObject
  have htext : ∀ m ∈ ms, m.1.IsText := (Value.isJson_object_iff.mp hv).1
  have hname : Reports (nameOf ms) := by
    unfold nameOf
    dsimp only
    split
    · split
      · exact reports_ok _
      · exact reports_error rfl
    · exact reports_error rfl
  refine hname.bind fun name _ => (reports_arguments htext).bind fun args _ => ?_
  refine (reports_checkKnown name args).bind fun _ _ => ?_
  split
  · exact reports_ok _
  · exact reports_error rfl

end Operation

end SchemaForge
