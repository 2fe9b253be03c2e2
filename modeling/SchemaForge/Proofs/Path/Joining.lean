import SchemaForge.Proofs.Editor.Steps
import SchemaForge.Proofs.Path.Grammar

/-!
Plain keys joined and read back. A path of keys that hold neither a full stop nor an opening bracket is joined to a
written path, which denotes it again; so such paths have entries of their own in the tree view. A written path that
denotes keys alone is what they are joined to, unless it ends with a full stop.
-/

namespace SchemaForge

namespace Path

def ofNames (names : List String) : Path := names.map .str

theorem ofNames_injective {names others : List String} (h : ofNames names = ofNames others) : names = others := by
  refine List.map_injective_iff.mpr (fun a b hab => ?_) h
  cases hab
  rfl

/-- A list of keys that are not empty and hold neither a full stop nor an opening bracket, where the first does not
start and the last does not end with white space. -/
structure IsPlain (names : List String) : Prop where
  nonempty : ∀ name ∈ names, name ≠ ""
  plain : ∀ name ∈ names, ∀ c ∈ name.toList, c ≠ '.' ∧ c ≠ '['
  first : ∀ name ∈ names.head?, ∀ c ∈ name.toList.head?, Text.isBlank c = false
  last : ∀ name ∈ names.getLast?, ∀ c ∈ name.toList.getLast?, Text.isBlank c = false

/-! ### Joined texts -/

theorem toList_join_nil : (join (ofNames [])).toList = [] := by
  simp [join, ofNames]

theorem toList_join_singleton (name : String) : (join (ofNames [name])).toList = name.toList := by
  simp [join, ofNames]

theorem toList_join_cons_cons (name next : String) (rest : List String) :
    (join (ofNames (name :: next :: rest))).toList =
      name.toList ++ '.' :: (join (ofNames (next :: rest))).toList := by
  simp [join, ofNames, String.toList_intercalate]

theorem toList_join_ne_nil {name : String} (h : name ≠ "") (rest : List String) :
    (join (ofNames (name :: rest))).toList ≠ [] := by
  cases rest with
  | nil => simpa [toList_join_singleton] using h
  | cons next rest => simp [toList_join_cons_cons]

section Names

variable {names : List String} (nonempty : ∀ name ∈ names, name ≠ "")

include nonempty

/-- A joined path starts as its first key does. -/
theorem exists_of_head_join {c : Char} (hc : c ∈ (join (ofNames names)).toList.head?) :
    ∃ name ∈ names.head?, c ∈ name.toList.head? := by
  cases names with
  | nil => simp [toList_join_nil] at hc
  | cons name names =>
      refine ⟨name, rfl, ?_⟩
      have hne : name.toList ≠ [] := by simpa using nonempty name List.mem_cons_self
      cases names with
      | nil => rwa [toList_join_singleton] at hc
      | cons next rest => rwa [toList_join_cons_cons, List.head?_append_of_ne_nil _ hne] at hc

/-- It ends as its last key does. -/
theorem exists_of_getLast_join {c : Char} (hc : c ∈ (join (ofNames names)).toList.getLast?) :
    ∃ name ∈ names.getLast?, c ∈ name.toList.getLast? := by
  induction names with
  | nil => simp [toList_join_nil] at hc
  | cons name names ih =>
      obtain ⟨-, nonempty⟩ := List.forall_mem_cons.mp nonempty
      cases names with
      | nil =>
          rw [toList_join_singleton] at hc
          exact ⟨name, rfl, hc⟩
      | cons next rest =>
          have hne := toList_join_ne_nil (nonempty next List.mem_cons_self) rest
          rw [toList_join_cons_cons, List.append_cons, List.getLast?_append_of_ne_nil _ hne] at hc
          rw [List.getLast?_cons_cons]
          exact ih nonempty hc

/-- Keys with a full stop between them are a written path. -/
theorem written_join (plain : ∀ name ∈ names, ∀ c ∈ name.toList, c ≠ '.' ∧ c ≠ '[') :
    Written (join (ofNames names)).toList (ofNames names) := by
  induction names with
  | nil =>
      rw [toList_join_nil]
      exact .nil
  | cons name names ih =>
      obtain ⟨hname, nonempty⟩ := List.forall_mem_cons.mp nonempty
      obtain ⟨hplain, plain⟩ := List.forall_mem_cons.mp plain
      have hne : name.toList ≠ [] := by simpa using hname
      have piece {after : List Char} (maximal : ∀ c ∈ after.head?, c = '.' ∨ c = '[') :
          Piece name.toList after (.str name) := by
        simpa using Piece.key hne hplain maximal
      cases names with
      | nil =>
          rw [toList_join_singleton, ← List.append_nil name.toList]
          exact .cons (piece (by simp)) (.inl rfl) .nil
      | cons next rest =>
          rw [toList_join_cons_cons]
          exact .cons (piece (by simp)) (.inr rfl) (ih nonempty plain)

end Names

theorem IsPlain.isTrimmed {names : List String} (h : IsPlain names) :
    Text.IsTrimmed (join (ofNames names)).toList where
  first := fun c hc => by
    obtain ⟨name, hname, hc⟩ := exists_of_head_join h.nonempty hc
    exact h.first name hname c hc
  last := fun c hc => by
    obtain ⟨name, hname, hc⟩ := exists_of_getLast_join h.nonempty hc
    exact h.last name hname c hc

/-- Plain keys that were joined are read back. -/
theorem IsPlain.parse_join {names : List String} (h : IsPlain names) :
    parse (join (ofNames names)) = .ok (ofNames names) := by
  refine parse_eq_ok_iff.mpr ?_
  rw [h.isTrimmed.trim_eq]
  exact written_join h.nonempty h.plain

theorem IsPlain.eq_of_join_eq {names others : List String} (hnames : IsPlain names) (hothers : IsPlain others)
    (h : join (ofNames names) = join (ofNames others)) : names = others := by
  have hparse := hnames.parse_join
  rw [h, hothers.parse_join] at hparse
  exact ofNames_injective (Except.ok.inj hparse).symm

/-! ### Reading, then joining -/

/-- A written path whose first segment is a key starts as a key does. -/
theorem Written.exists_head {cs : List Char} {name : String} {p : Path} (h : Written cs (.str name :: p)) :
    ∃ c ∈ cs.head?, c ≠ '.' ∧ c ≠ '[' := by
  cases h with
  | @cons cs after _ _ _ piece _ _ =>
      cases piece with
      | key nonempty plain _ =>
          obtain ⟨c, cs, rfl⟩ := List.exists_cons_of_ne_nil nonempty
          exact ⟨c, rfl, plain c List.mem_cons_self⟩

/-- A written path of keys alone is what they are joined to, if it does not end with a full stop. A key goes on as far
as it can, so that there is a full stop between two of them. -/
theorem Written.toList_join {cs : List Char} {p : Path} (h : Written cs p) :
    ∀ {names : List String}, p = ofNames names → cs.getLast? ≠ some '.' →
      (join (ofNames names)).toList = cs := by
  induction h with
  | nil =>
      intro names hnames _
      obtain rfl : names = [] := List.map_eq_nil_iff.mp hnames.symm
      exact toList_join_nil
  | @cons cs after rest v p piece stop later ih =>
      intro names hnames hlast
      obtain ⟨name, names, rfl, rfl, rfl⟩ := List.map_eq_cons_iff.mp hnames.symm
      cases piece with
      | key nonempty plain maximal =>
          cases names with
          | nil =>
              cases later
              rcases stop with rfl | rfl
              · rw [toList_join_singleton, String.toList_ofList, List.append_nil]
              · simp at hlast
          | cons next names =>
              obtain ⟨c, hc, hdot, hbracket⟩ := later.exists_head
              rcases stop with rfl | rfl
              · -- Without a full stop between them the next key would be part of this one.
                exact absurd (maximal c hc) (not_or.mpr ⟨hdot, hbracket⟩)
              · have hne : rest ≠ [] := by
                  rintro rfl
                  simp at hc
                rw [List.append_cons, List.getLast?_append_of_ne_nil _ hne] at hlast
                rw [toList_join_cons_cons, String.toList_ofList, ih rfl hlast]

theorem exists_names {p : Path} (h : ∀ s ∈ p, ∃ name, s = .str name) : ∃ names, p = ofNames names := by
  induction p with
  | nil => exact ⟨[], rfl⟩
  | cons s p ih =>
      obtain ⟨⟨name, rfl⟩, hp⟩ := List.forall_mem_cons.mp h
      obtain ⟨names, rfl⟩ := ih hp
      exact ⟨name :: names, rfl⟩

/-- A text without white space at its ends and without a full stop at its end is what its keys are joined to. -/
theorem join_of_parse {text : String} {p : Path} (h : parse text = .ok p)
    (keys : ∀ s ∈ p, ∃ name, s = .str name) (trimmed : Text.IsTrimmed text.toList)
    (hlast : text.toList.getLast? ≠ some '.') : join p = text := by
  obtain ⟨names, rfl⟩ := exists_names keys
  rw [parse_eq_ok_iff, trimmed.trim_eq] at h
  exact String.toList_inj.mp (h.toList_join rfl hlast)

end Path

/-! ### The tree view -/

/-- Opening and closing a node writes the entry of its joined path. -/
theorem Editor.perform_toggleOpen (editor : Editor) (path : Path) (value : Value) :
    ∃ isOpen, editor.perform (.toggleOpen (.array path) value) =
      ⟨{ editor with openNodes := OpenNodes.insert path.join isOpen editor.openNodes }, [], [],
        .ok (.bool isOpen)⟩ :=
  ⟨_, rfl⟩

namespace Path

/-- Two paths with entries of their own in every tree view: to open or close the node at the one path is seen there
and leaves the entry of the other path as it is. -/
def HaveOwnEntries (p q : Path) : Prop :=
  ∀ (editor : Editor) (value : Value), ∃ isOpen after,
    editor.perform (.toggleOpen (.array p) value) = ⟨after, [], [], .ok (.bool isOpen)⟩ ∧
      after.isOpen (.array p) = .ok isOpen ∧
      OpenNodes.find? (join q) after.openNodes = OpenNodes.find? (join q) editor.openNodes

theorem haveOwnEntries_of_join_ne {p q : Path} (h : join p ≠ join q) : HaveOwnEntries p q := by
  intro editor value
  obtain ⟨isOpen, hperform⟩ := editor.perform_toggleOpen p value
  refine ⟨isOpen, _, hperform, ?_, OpenNodes.find?_insert_of_ne h isOpen editor.openNodes⟩
  change Except.ok (OpenNodes.isOpen (join p) _) = _
  rw [OpenNodes.isOpen, OpenNodes.find?_insert_self, Option.getD_some]

/-- Joining plain keys and reading them are inverse to each other. What plain keys are joined to is read back as the
keys, so that no two lists of them are joined to the same text or share an entry of the tree view. And a text that is
read as keys alone, and has neither white space at its ends nor a full stop at its end, is what these keys are joined
to. -/
theorem join_parse_inverse :
    (∀ names, IsPlain names → parse (join (ofNames names)) = .ok (ofNames names)) ∧
      (∀ names others, IsPlain names → IsPlain others → join (ofNames names) = join (ofNames others) →
        names = others) ∧
      (∀ names others, IsPlain names → IsPlain others → names ≠ others →
        HaveOwnEntries (ofNames names) (ofNames others)) ∧
      ∀ text p, parse text = .ok p → (∀ s ∈ p, ∃ name, s = .str name) → Text.IsTrimmed text.toList →
        text.toList.getLast? ≠ some '.' → join p = text := by
  refine ⟨fun names h => h.parse_join, fun names others h => h.eq_of_join_eq, ?_, fun text p => join_of_parse⟩
  intro names others hnames hothers hne
  exact haveOwnEntries_of_join_ne fun h => hne (hnames.eq_of_join_eq hothers h)

theorem isPlain_properties : IsPlain ["properties"] where
  nonempty := by decide
  plain := by simp
  first := by
    rintro _ ⟨⟩ _ ⟨⟩
    decide
  last := by
    rintro _ ⟨⟩ _ ⟨⟩
    decide

/-- White space may stand inside a key, and a bracket may be closed there that was not opened. -/
theorem isPlain_zipCode : IsPlain ["properties", "zip code]"] where
  nonempty := by decide
  plain := by simp
  first := by
    rintro _ ⟨⟩ _ ⟨⟩
    decide
  last := by
    rintro _ ⟨⟩ _ ⟨⟩
    decide

/-- Such keys are read back, they have an entry of their own, and they are what their text denotes. -/
theorem join_parse_zipCode :
    parse (join (ofNames ["properties", "zip code]"])) = .ok (ofNames ["properties", "zip code]"]) ∧
      join (ofNames ["properties"]) ≠ join (ofNames ["properties", "zip code]"]) ∧
      HaveOwnEntries (ofNames ["properties"]) (ofNames ["properties", "zip code]"]) ∧
      join (ofNames ["properties", "zip code]"]) = "properties.zip code]" := by
  obtain ⟨hread, hinjective, hentries, hjoin⟩ := join_parse_inverse
  refine ⟨hread _ isPlain_zipCode, fun h => ?_, hentries _ _ isPlain_properties isPlain_zipCode (by decide),
    hjoin _ _ ?_ ?_ ?_ ?_⟩
  · have := hinjective _ _ isPlain_properties isPlain_zipCode h
    simp at this
  · rfl
  · simp [ofNames]
  · constructor
    · rintro _ ⟨⟩
      decide
    · rintro _ ⟨⟩
      decide
  · decide

end Path

end SchemaForge
