import SchemaForge.Proofs.Editor.NameLists
import SchemaForge.Proofs.Schema.WellKept

/-!
The required names of the node that owns some fields. When they are a list of texts, or missing, making a
field required, taking that back and following a new name are operations on this list; the document gets
the owner with the new list in place of the old one, and nothing else of the owner changes.
-/

namespace SchemaForge.Fields

open Schema (propertyKeys Lists Kept)

/-- A node that is the same as another one but for its required names. -/
structure Relisted (ms ns : Members) (names : List String) : Prop where
  listed : Requires ns (names.map .str)
  other : ∀ w, w ≠ "required" → Members.find? (.str w) ns = Members.find? (.str w) ms
  isJson : (Value.object ms).IsJson → (Value.object ns).IsJson

theorem exists_requires_texts {ms : Members} (h : Kept ms) :
    ∃ names : List String, Requires ms (names.map .str) ∧ names.Nodup ∧ ∀ n ∈ names, .str n ∈ propertyKeys ms := by
  cases hrequired : Members.find? (.str "required") ms with
  | none => exact ⟨[], .inr ⟨hrequired, rfl⟩, List.nodup_nil, by simp⟩
  | some v =>
      obtain ⟨names, rfl, hnodup, hamong⟩ := h.required v hrequired
      exact ⟨names, .inl hrequired, hnodup, hamong⟩

/-- The names of a node when a field is required, or no longer required. -/
def switchName (name : String) (required : Bool) (names : List String) : List String :=
  if required then (if name ∈ names then names else names ++ [name]) else names.erase name

theorem nodup_switchName {name : String} {required : Bool} {names : List String}
    (h : names.Nodup) : (switchName name required names).Nodup := by
  cases required with
  | true =>
      by_cases hmem : name ∈ names
      · simpa [switchName, hmem] using h
      · rw [switchName, if_pos rfl, if_neg hmem]
        refine List.nodup_append.mpr ⟨h, List.nodup_singleton _, fun a ha b hb hab => hmem ?_⟩
        rwa [← List.mem_singleton.mp hb, ← hab]
  | false => exact h.erase name

theorem mem_switchName_true {name n : String} {names : List String} :
    n ∈ switchName name true names ↔ n = name ∨ n ∈ names := by
  rw [switchName, if_pos rfl]
  split
  · next hmem =>
      constructor
      · exact .inr
      · rintro (rfl | h)
        · exact hmem
        · exact h
  · simp [or_comm]

theorem mem_switchName_false {name n : String} {names : List String} (h : names.Nodup) :
    n ∈ switchName name false names ↔ n ≠ name ∧ n ∈ names :=
  h.mem_erase_iff

theorem isJson_relist {ms : Members} (h : (Value.object ms).IsJson) (names : List String) :
    (Value.object (relist (names.map .str) ms)).IsJson := by
  unfold relist
  split
  · exact Members.isJson_of_sublist h List.filter_sublist
  · exact Members.isJson_insert h ⟨_, rfl⟩ (.array (by simp))

/-- What is done to the list of values is done to the names. -/
theorem switchName_map_str (name : String) (required : Bool) (names : List String) :
    (switchName name required names).map .str =
      if (Value.str name).occurs (names.map .str) = required then names.map .str
      else if required then names.map .str ++ [.str name] else dropName (.str name) (names.map .str) := by
  cases required with
  | true => by_cases h : name ∈ names <;> simp [switchName, occurs_map_str, h]
  | false =>
      by_cases h : name ∈ names
      · simp [switchName, occurs_map_str, dropName_map_str, h]
      · have hunlisted : (Value.str name).occurs (names.map .str) = false := by
          rwa [← Bool.not_eq_true, occurs_map_str]
        simp [switchName, hunlisted, List.erase_of_not_mem h]

section Owner

variable {doc : Value} {owner : Path} {ms : Members} {names : List String}

theorem relisted_switched (hnames : Requires ms (names.map .str)) (name : String) (required : Bool) :
    Relisted ms (switched (.str name) required (names.map .str) ms) (switchName name required names) where
  listed := by
    rw [switchName_map_str]
    exact requires_switched hnames _ _
  other := fun w hw => find?_switched_of_ne (by simpa using hw) _ _
  isJson := fun h => by
    unfold switched
    split
    · exact h
    · next hlisted =>
        have hlist := switchName_map_str name required names
        rw [if_neg hlisted] at hlist
        rw [← hlist]
        exact isJson_relist h _

theorem relisted_following (hnames : Requires ms (names.map .str)) (old new : String) :
    Relisted ms (following old new (names.map .str) ms)
      (names.map fun n => if n = old then new else n) where
  listed := by
    rw [← renamedNames_map_str]
    exact requires_following hnames _ _
  other := fun w hw => find?_following_of_ne (by simpa using hw) _ _
  isJson := fun h => by
    unfold following
    split
    · rw [renamedNames_map_str]
      exact Members.isJson_insert h ⟨_, rfl⟩ (.array (by simp))
    · exact h

variable (howner : doc.get owner = .ok (.object ms)) (hnames : Requires ms (names.map .str))

include howner hnames

/-- Making a field required, or taking that back, gives the owner another list of names, or leaves the
document as it is. -/
theorem exists_setRequired (name : String) (required : Bool) :
    ∃ o, setRequired doc (owner ++ [.str "properties"]) (.str name) required = .ok o ∧
      (o = none ∨ ∃ ns, o = some (doc.put owner (.object ns)) ∧
        Relisted ms ns (switchName name required names)) := by
  refine ⟨_, setRequired_eq howner hnames _ _, ?_⟩
  split
  · exact .inl rfl
  · exact .inr ⟨_, rfl, relisted_switched hnames name required⟩

theorem exists_withRequired (name : String) (required : Bool) :
    ∃ ns, withRequired doc (owner ++ [.str "properties"]) (.str name) required =
        .ok (doc.put owner (.object ns)) ∧
      Relisted ms ns (switchName name required names) :=
  ⟨_, withRequired_eq howner hnames _ _, relisted_switched hnames name required⟩

/-- The list follows a new name. -/
theorem exists_renameRequired (old new : String) :
    ∃ ns, renameRequired doc (owner ++ [.str "properties"]) (.str old) (.str new) =
        .ok (doc.put owner (.object ns)) ∧
      Relisted ms ns (names.map fun n => if n = old then new else n) :=
  ⟨_, renameRequired_eq howner hnames _ _, relisted_following hnames old new⟩

end Owner

end SchemaForge.Fields
