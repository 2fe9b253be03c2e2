import SchemaForge.Proofs.Editor.FieldNames
import SchemaForge.Proofs.Lists
import SchemaForge.Proofs.Path.Lens

/-!
The list of required names of a node, whatever stands in it. Making a field required, taking that back and
following a new name each work on the owner alone: they put another list in the place of the old one, or take
the list away with its last name. So each of them is a function on the members of the owner, the document gets
the owner back, and what is done to the list can be undone on the owner, the order of its members included.
-/

namespace SchemaForge.Fields

/-- The required names of a node: what stands in its list, or none where it has no list. -/
def Requires (ms : Members) (names : List Value) : Prop :=
  Members.find? (.str "required") ms = some (.array names) ∨
    (Members.find? (.str "required") ms = none ∧ names = [])

/-- A node with other required names. An empty list is left out. -/
def relist (names : List Value) (ms : Members) : Members :=
  if names = [] then Members.erase (.str "required") ms
  else Members.insert (.str "required") (.array names) ms

/-- A node with the required names `names` when one of them becomes required, or no longer is. -/
def switched (name : Value) (required : Bool) (names : List Value) (ms : Members) : Members :=
  if name.occurs names = required then ms
  else relist (if required then names ++ [name] else dropName name names) ms

/-- Names with `new` in the place of `old`. -/
def renamedNames (old new : String) (names : List Value) : List Value :=
  names.map fun v => if v = .str old then .str new else v

/-- A node with the required names `names` when its field `old` is called `new`. -/
def following (old new : String) (names : List Value) (ms : Members) : Members :=
  if Members.has (.str "required") ms then
    Members.insert (.str "required") (.array (renamedNames old new names)) ms
  else ms

/-! ### What becomes of the document -/

section Owner

variable {doc : Value} {owner : Path} {ms : Members} {names : List Value}

theorem requiredNames_of_requires (h : Requires ms names) : requiredNames (.object ms) = .ok names := by
  rcases h with h | ⟨h, rfl⟩
  · cases names with
    | nil => simp [requiredNames, Value.getOrNull, Value.lookup, h, Value.truthy]
    | cons n names => simp [requiredNames, Value.getOrNull, Value.lookup, h, Value.truthy]
  · simp [requiredNames, Value.getOrNull, Value.lookup, h, Value.truthy]

theorem requiredPath_eq (owner : Path) :
    requiredPath (owner ++ [.str "properties"]) = owner ++ [.str "required"] := by
  rw [requiredPath, List.dropLast_concat]

theorem filter_equals_eq_erase (s : String) (ms : Members) :
    (ms.filter fun m => !(Value.scalar m.1).equals (.str s)) = Members.erase (.str s) ms := by
  refine List.filter_congr fun m _ => ?_
  have hequals : (Value.scalar m.1).equals (.str s) = m.1.same (.str s) := by
    rw [Bool.eq_iff_iff, equals_str_iff, Scalar.same_str_iff]
  rw [hequals]

variable (howner : doc.get owner = .ok (.object ms)) (hnames : Requires ms names)

include howner hnames

/-- A name that is required already, or is not when it is to be taken out, changes nothing. -/
theorem setRequired_eq (name : Value) (required : Bool) :
    setRequired doc (owner ++ [.str "properties"]) name required =
      .ok (if name.occurs names = required then none
        else some (doc.put owner (.object (switched name required names ms)))) := by
  have hset : ∀ xs, doc.set (owner ++ [.str "required"]) (.array xs) =
      .ok (doc.put owner (.object (Members.insert (.str "required") (.array xs) ms))) :=
    fun xs => Value.set_snoc_object howner (.str "required") (.array xs)
  have hremove := Value.remove_snoc_object howner (.str "required")
  rw [filter_equals_eq_erase] at hremove
  rw [setRequired, List.dropLast_concat, howner, ok_bind, requiredNames_of_requires hnames, ok_bind,
    requiredPath_eq]
  cases required with
  | true =>
      cases hlisted : name.occurs names with
      | true => simp
      | false => simp [hset, switched, hlisted, relist]
  | false =>
      cases hlisted : name.occurs names with
      | true =>
          -- The last name takes the list with it.
          cases hrest : dropName name names with
          | nil => simp [hremove, hrest, switched, hlisted, relist]
          | cons n rest => simp [hset, hrest, switched, hlisted, relist]
      | false => simp

theorem withRequired_eq (name : Value) (required : Bool) :
    withRequired doc (owner ++ [.str "properties"]) name required =
      .ok (doc.put owner (.object (switched name required names ms))) := by
  rw [withRequired, setRequired_eq howner hnames, ok_bind]
  by_cases h : name.occurs names = required
  · rw [if_pos h, Option.getD_none, switched, if_pos h, Value.put_self howner]
    rfl
  · rw [if_neg h]
    rfl

theorem renameRequired_eq (old new : String) :
    renameRequired doc (owner ++ [.str "properties"]) (.str old) (.str new) =
      .ok (doc.put owner (.object (following old new names ms))) := by
  have hfollow : names.map (renamedTo (.str old) (.str new)) = renamedNames old new names := by
    refine List.map_congr_left fun v _ => ?_
    rw [renamedTo]
    exact if_congr Value.equals_str_iff rfl rfl
  rw [renameRequired, List.dropLast_concat, howner, ok_bind, holds_str, ok_bind, requiredPath_eq]
  rcases hnames with h | ⟨h, rfl⟩
  · have hset := Value.set_snoc_object howner (.str "required") (.array (renamedNames old new names))
    simp [following, Members.has, h, hfollow, hset]
  · simp [following, Members.has, h, Value.put_self howner]

end Owner

/-! ### Names -/

theorem occurs_map_str {name : String} {names : List String} :
    (Value.str name).occurs (names.map .str) = true ↔ name ∈ names := by
  rw [Value.occurs_str_iff]
  simp

theorem dropName_map_str (name : String) (names : List String) :
    dropName (.str name) (names.map .str) = (names.erase name).map .str := by
  induction names with
  | nil => rfl
  | cons n names ih =>
      rw [dropName] at ih ⊢
      by_cases h : n = name
      · subst h
        simp
      · have hsame : (Value.str n).same (.str name) = false := by
          rw [← Bool.not_eq_true, Value.same_str_iff]
          simpa using h
        have hbeq : (n == name) = false := by simpa using h
        rw [List.map_cons, List.eraseP_cons_of_neg (by simp [hsame]), ih,
          List.erase_cons_tail (by simp [hbeq]), List.map_cons]

theorem dropName_of_not_occurs {name : Value} {names : List Value} (h : name.occurs names = false) :
    dropName name names = names := by
  refine List.eraseP_of_forall_not fun v hv => ?_
  rw [Value.occurs, List.any_eq_false] at h
  exact h v hv

theorem dropName_append_self {name : String} {names : List Value} (h : .str name ∉ names) :
    dropName (.str name) (names ++ [.str name]) = names := by
  have hunlisted := Value.occurs_str_eq_false_iff.mpr h
  rw [Value.occurs, List.any_eq_false] at hunlisted
  rw [dropName, List.eraseP_append_right _ hunlisted]
  simp

/-- A new name in the place of another one, and then back. -/
theorem renamedNames_renamedNames {old new : String} {names : List Value} (h : .str new ∉ names) :
    renamedNames new old (renamedNames old new names) = names := by
  rw [renamedNames, renamedNames, List.map_map]
  refine map_eq_self_iff.mpr fun v hv => ?_
  by_cases hold : v = .str old
  · simp [hold]
  · have hnew : v ≠ .str new := fun heq => h (heq ▸ hv)
    simp [hold, hnew]

theorem renamedNames_map_str (old new : String) (names : List String) :
    renamedNames old new (names.map .str) =
      (names.map fun n => if n = old then new else n).map .str := by
  rw [renamedNames, List.map_map, List.map_map]
  refine List.map_congr_left fun n _ => ?_
  by_cases hn : n = old <;> simp [hn]

/-! ### What the owner keeps -/

section Members

variable {ms : Members} {names : List Value} {k : Scalar}

theorem find?_relist_of_ne (hk : k ≠ .str "required") (names : List Value) (ms : Members) :
    Members.find? k (relist names ms) = Members.find? k ms := by
  unfold relist
  split
  · exact Members.find?_erase_of_not_same (Scalar.str_same_eq_false_of_ne hk) ms
  · exact Members.find?_insert_of_not_same (Scalar.str_same_eq_false_of_ne hk) _ ms

theorem find?_switched_of_ne (hk : k ≠ .str "required") (name : Value) (required : Bool) :
    Members.find? k (switched name required names ms) = Members.find? k ms := by
  unfold switched
  split
  · rfl
  · exact find?_relist_of_ne hk _ ms

theorem find?_following_of_ne (hk : k ≠ .str "required") (old new : String) :
    Members.find? k (following old new names ms) = Members.find? k ms := by
  unfold following
  split
  · exact Members.find?_insert_of_not_same (Scalar.str_same_eq_false_of_ne hk) _ ms
  · rfl

theorem requires_relist (names : List Value) (ms : Members) : Requires (relist names ms) names := by
  unfold relist
  split
  · next h => exact .inr ⟨Members.find?_erase_self _ ms, h⟩
  · exact .inl (Members.find?_insert_self _ _ ms)

theorem requires_switched (h : Requires ms names) (name : Value) (required : Bool) :
    Requires (switched name required names ms)
      (if name.occurs names = required then names
        else if required then names ++ [name] else dropName name names) := by
  unfold switched
  split
  · exact h
  · exact requires_relist _ ms

theorem requires_following (h : Requires ms names) (old new : String) :
    Requires (following old new names ms) (renamedNames old new names) := by
  unfold following
  split
  · exact .inl (Members.find?_insert_self _ _ ms)
  · next hnone =>
      rcases h with h | ⟨h, rfl⟩
      · simp [Members.has, h] at hnone
      · exact .inr ⟨h, rfl⟩

theorem Requires.congr {ns : Members} (h : Requires ms names)
    (heq : Members.find? (.str "required") ns = Members.find? (.str "required") ms) :
    Requires ns names := by
  rwa [Requires, heq]

/-! ### Back to the owner as it was -/

/-- What is written at another key of the owner, and what is done to its list, may come in either order. -/
theorem insert_relist (hk : k ≠ .str "required") (h : Members.has k ms = true) (names : List Value)
    (v : Value) :
    Members.insert k v (relist names ms) = relist names (Members.insert k v ms) := by
  have hsame : k.same (.str "required") = false := Scalar.same_eq_false_of_ne ⟨_, rfl⟩ hk
  unfold relist
  split
  · exact Members.insert_erase hsame v ms
  · exact (Members.insert_comm hsame v _ h).symm

theorem insert_switched (hk : k ≠ .str "required") (h : Members.has k ms = true) (name : Value)
    (required : Bool) (v : Value) :
    Members.insert k v (switched name required names ms) =
      switched name required names (Members.insert k v ms) := by
  unfold switched
  split
  · rfl
  · exact insert_relist hk h _ v

theorem insert_following (hk : k ≠ .str "required") (h : Members.has k ms = true) (old new : String)
    (v : Value) :
    Members.insert k v (following old new names ms) =
      following old new names (Members.insert k v ms) := by
  have hsame : k.same (.str "required") = false := Scalar.same_eq_false_of_ne ⟨_, rfl⟩ hk
  have hhas : Members.has (.str "required") (Members.insert k v ms) =
      Members.has (.str "required") ms := by
    rw [Members.has, Members.find?_insert_of_not_same hsame, Members.has]
  unfold following
  rw [hhas]
  split
  · exact (Members.insert_comm hsame v _ h).symm
  · rfl

/-- A list that is not empty, or that is missing, is back where it was, and so are all other members. -/
theorem relist_relist (h : Requires ms names)
    (hlist : Members.find? (.str "required") ms ≠ some (.array [])) {others : List Value}
    (hothers : others ≠ []) : relist names (relist others ms) = ms := by
  rw [relist, relist, if_neg hothers]
  rcases h with h | ⟨h, rfl⟩
  · have hnames : names ≠ [] := by
      rintro rfl
      exact hlist h
    rw [if_neg hnames, Members.insert_insert, Members.insert_of_find? h]
  · -- The list came to the end of the members, and goes from there.
    have hnone : Members.has (.str "required") ms = false := by simp [Members.has, h]
    rw [if_pos rfl, Members.insert_of_not_has hnone, Members.erase_append,
      Members.erase_of_not_has hnone]
    simp [Members.erase]

theorem switched_switched {name : String} (h : Requires ms names)
    (hlist : Members.find? (.str "required") ms ≠ some (.array []))
    (hname : .str name ∉ names) :
    switched (.str name) false (names ++ [.str name]) (switched (.str name) true names ms) = ms := by
  have hlisted : (Value.str name).occurs (names ++ [.str name]) = true := by
    rw [Value.occurs_str_iff]
    simp
  rw [switched, switched, hlisted, Value.occurs_str_eq_false_iff.mpr hname]
  simp only [Bool.true_eq_false, Bool.false_eq_true, if_false, if_true, dropName_append_self hname]
  exact relist_relist h hlist (by simp)

theorem following_following {old new : String} (h : Requires ms names) (hnew : .str new ∉ names) :
    following new old (renamedNames old new names) (following old new names ms) = ms := by
  rcases h with h | ⟨h, rfl⟩
  · have hhas : Members.has (.str "required") ms = true := by simp [Members.has, h]
    have hagain : Members.has (.str "required") (following old new names ms) = true := by
      rw [following, if_pos hhas, Members.has, Members.find?_insert_self]
      rfl
    rw [following, if_pos hagain, following, if_pos hhas, Members.insert_insert,
      renamedNames_renamedNames hnew, Members.insert_of_find? h]
  · have hnone : Members.has (.str "required") ms = false := by simp [Members.has, h]
    simp [following, hnone]

end Members

end SchemaForge.Fields
