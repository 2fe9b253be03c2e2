import SchemaForge.Config
import SchemaForge.Proofs.Answers
import SchemaForge.Proofs.Lists

/-!
What a configuration is read from. Which entries denote a format or a directive, and what is wrong with the others, is
said of the values alone. A list is read entry by entry up to the first one that is faulty, so reading accepts exactly
the values that describe a configuration and keeps all their entries in order. Of any other value it names the first
fault, where one in the formats comes before one in the directives.
-/

namespace SchemaForge.Config

/-! ### Entries -/

/-- The entries that denote a format: a name, or an object with a name and with a title, which may be missing or
null. -/
inductive DenotesFormat : Value → FormatOption → Prop where
  | bare (name : String) : DenotesFormat (.str name) ⟨name, none⟩
  | untitled {ms : Members} {name : String} (named : Members.find? (.str "name") ms = some (.str name))
      (noTitle : Members.find? (.str "title") ms = none ∨ Members.find? (.str "title") ms = some .null) :
      DenotesFormat (.object ms) ⟨name, none⟩
  | titled {ms : Members} {name title : String} (named : Members.find? (.str "name") ms = some (.str name))
      (titled : Members.find? (.str "title") ms = some (.str title)) :
      DenotesFormat (.object ms) ⟨name, some title⟩

/-- What is wrong with the entry at an index that denotes no format: it has a name and a title that is neither null
nor a text, or it has no name. -/
inductive FormatDefect (index : Nat) : Value → ConfigFault → Prop where
  | title {ms : Members} {name : String} {title : Value}
      (named : Members.find? (.str "name") ms = some (.str name))
      (found : Members.find? (.str "title") ms = some title) (notNull : title ≠ .null)
      (notText : ∀ s, title ≠ .str s) : FormatDefect index (.object ms) (.formatTitle index)
  | entry {v : Value} (notText : ∀ s, v ≠ .str s)
      (nameless : ∀ ms name, v = .object ms → Members.find? (.str "name") ms ≠ some (.str name)) :
      FormatDefect index v (.formatEntry index)

/-- The entries that denote a directive: objects with a name and a directive. -/
inductive DenotesMock : Value → MockOption → Prop where
  | intro {ms : Members} {name mock : String} (named : Members.find? (.str "name") ms = some (.str name))
      (directed : Members.find? (.str "mock") ms = some (.str mock)) : DenotesMock (.object ms) ⟨name, mock⟩

/-- What is wrong with the entry at an index that denotes no directive. -/
inductive MockDefect (index : Nat) : Value → ConfigFault → Prop where
  | entry {v : Value} (noDirective : ∀ option, ¬ DenotesMock v option) : MockDefect index v (.mockEntry index)

theorem text?_eq_some_iff {name text : String} {ms : Members} :
    text? name ms = some text ↔ Members.find? (.str name) ms = some (.str text) := by
  unfold text?
  split
  · next s h => simp [h]
  · next h =>
      constructor
      · intro heq
        cases heq
      · exact fun heq => absurd heq (h text)

theorem text?_eq_none_iff {name : String} {ms : Members} :
    text? name ms = none ↔ ∀ text, Members.find? (.str name) ms ≠ some (.str text) := by
  simp [Option.eq_none_iff_forall_ne_some, text?_eq_some_iff]

/-- A reader of entries that gives what they denote, and otherwise what is wrong with them. -/
structure Judges {α : Type} (entry : Nat → Value → Except ConfigFault α) (denotes : Value → α → Prop)
    (defect : Nat → Value → ConfigFault → Prop) : Prop where
  accepts_iff {index : Nat} {v : Value} {a : α} : entry index v = .ok a ↔ denotes v a
  refuses_iff {index : Nat} {v : Value} {fault : ConfigFault} :
    entry index v = .error fault ↔ defect index v fault

theorem formatEntry_eq_ok_iff {index : Nat} {v : Value} {option : FormatOption} :
    formatEntry index v = .ok option ↔ DenotesFormat v option := by
  constructor
  · intro h
    unfold formatEntry at h
    split at h
    · next name =>
        cases h
        exact .bare name
    · next ms =>
        split at h
        · cases h
        · next name hname =>
            have named := text?_eq_some_iff.mp hname
            split at h
            · next htitle =>
                cases h
                exact .untitled named (.inl htitle)
            · next htitle =>
                cases h
                exact .untitled named (.inr htitle)
            · next title htitle =>
                cases h
                exact .titled named htitle
            · cases h
    · cases h
  · intro h
    cases h with
    | bare name => rfl
    | untitled named noTitle =>
        rcases noTitle with htitle | htitle <;> simp only [formatEntry, text?_eq_some_iff.mpr named, htitle]
    | titled named titled => simp only [formatEntry, text?_eq_some_iff.mpr named, titled]

theorem formatEntry_eq_error_iff {index : Nat} {v : Value} {fault : ConfigFault} :
    formatEntry index v = .error fault ↔ FormatDefect index v fault := by
  constructor
  · intro h
    unfold formatEntry at h
    split at h
    · cases h
    · next ms =>
        split at h
        · next hname =>
            cases h
            refine .entry (by simp) fun ns name heq => ?_
            cases heq
            exact text?_eq_none_iff.mp hname name
        · next name hname =>
            split at h
            · cases h
            · cases h
            · cases h
            · next title hnull htext htitle =>
                cases h
                exact .title (text?_eq_some_iff.mp hname) htitle hnull htext
    · next htext hobject =>
        cases h
        exact .entry htext fun ms _ heq => absurd heq (hobject ms)
  · intro h
    cases h with
    | @title ms name title named found notNull notText =>
        have hname := text?_eq_some_iff.mpr named
        simp only [formatEntry, hname, found]
    | entry notText nameless =>
        cases v with
        | scalar s =>
            cases s with
            | str text => exact absurd rfl (notText text)
            | _ => rfl
        | array xs => rfl
        | object ms =>
            have hname := text?_eq_none_iff.mpr fun name => nameless ms name rfl
            simp only [formatEntry, hname]

theorem judges_formatEntry : Judges formatEntry DenotesFormat FormatDefect :=
  ⟨formatEntry_eq_ok_iff, formatEntry_eq_error_iff⟩

theorem mockEntry_eq_ok_iff {index : Nat} {v : Value} {option : MockOption} :
    mockEntry index v = .ok option ↔ DenotesMock v option := by
  constructor
  · intro h
    unfold mockEntry at h
    split at h
    · split at h
      · next hname hmock =>
          cases h
          exact .intro (text?_eq_some_iff.mp hname) (text?_eq_some_iff.mp hmock)
      · cases h
    · cases h
  · rintro ⟨named, directed⟩
    simp only [mockEntry, text?_eq_some_iff.mpr named, text?_eq_some_iff.mpr directed]

/-- There is one fault that an entry among the directives can have. -/
theorem mockEntry_eq_error {index : Nat} {v : Value} {fault : ConfigFault}
    (h : mockEntry index v = .error fault) : fault = .mockEntry index := by
  unfold mockEntry at h
  split at h
  · split at h
    · cases h
    · exact (Except.error.inj h).symm
  · exact (Except.error.inj h).symm

theorem judges_mockEntry : Judges mockEntry DenotesMock MockDefect where
  accepts_iff := mockEntry_eq_ok_iff
  refuses_iff := by
    intro index v fault
    constructor
    · intro h
      obtain rfl := mockEntry_eq_error h
      refine .entry fun option hoption => ?_
      rw [mockEntry_eq_ok_iff.mpr hoption] at h
      cases h
    · rintro ⟨noDirective⟩
      cases h : mockEntry index v with
      | ok option => exact absurd (mockEntry_eq_ok_iff.mp h) (noDirective option)
      | error fault => rw [mockEntry_eq_error h]

/-! ### Lists of entries -/

section Entries

variable {α : Type} {entry : Nat → Value → Except ConfigFault α} {denotes : Value → α → Prop}
  {defect : Nat → Value → ConfigFault → Prop} (h : Judges entry denotes defect)

include h

/-- A list is accepted if all of its entries are, and comes to what they denote, one for one. -/
theorem Judges.entries_eq_ok_iff {xs : List Value} :
    ∀ {index : Nat} {as : List α}, entries entry index xs = .ok as ↔ List.Forall₂ denotes xs as := by
  induction xs with
  | nil =>
      intro index as
      simp [entries, eq_comm]
  | cons x xs ih =>
      intro index as
      simp only [entries, bind_eq_ok_iff, h.accepts_iff, ih, pure_eq_ok, Except.ok.injEq,
        List.forall₂_cons_left_iff]
      constructor
      · rintro ⟨a, ha, rest, hrest, rfl⟩
        exact ⟨a, rest, ha, hrest, rfl⟩
      · rintro ⟨a, rest, ha, hrest, rfl⟩
        exact ⟨a, ha, rest, hrest, rfl⟩

/-- A list is refused for its first faulty entry, by the index that this entry has. -/
theorem Judges.entries_eq_error_iff {xs : List Value} {fault : ConfigFault} :
    ∀ {index : Nat}, entries entry index xs = .error fault ↔
      ∃ before x after, xs = before ++ x :: after ∧ (∀ y ∈ before, ∃ a, denotes y a) ∧
        defect (index + before.length) x fault := by
  induction xs with
  | nil =>
      intro index
      simp [entries]
  | cons x xs ih =>
      intro index
      simp only [entries, bind_eq_error_iff, h.refuses_iff, h.accepts_iff, ih]
      constructor
      · rintro (hx | ⟨a, ha, hrest | ⟨as, -, hnone⟩⟩)
        · exact ⟨[], x, xs, rfl, by simp, hx⟩
        · obtain ⟨before, y, after, rfl, hbefore, hy⟩ := hrest
          refine ⟨x :: before, y, after, rfl, List.forall_mem_cons.mpr ⟨⟨a, ha⟩, hbefore⟩, ?_⟩
          rwa [List.length_cons, Nat.add_comm before.length, ← Nat.add_assoc]
        · cases hnone
      · rintro ⟨before, y, after, heq, hbefore, hy⟩
        cases before with
        | nil =>
            cases heq
            exact .inl hy
        | cons z before =>
            cases heq
            obtain ⟨⟨a, ha⟩, hbefore⟩ := List.forall_mem_cons.mp hbefore
            rw [List.length_cons, Nat.add_comm before.length, ← Nat.add_assoc] at hy
            exact .inr ⟨a, ha, .inl ⟨before, y, after, rfl, hbefore, hy⟩⟩

end Entries

def entryPlace (key : String) (index : Nat) : String := key ++ "[" ++ toString index ++ "]"

/-- A list of a configuration: its key, what its entries denote and what may be wrong with them, what it is if the key
is missing, and the fault of anything else that is no list. -/
structure ListRule (α : Type) where
  key : String
  denotes : Value → α → Prop
  defect : Nat → Value → ConfigFault → Prop
  usual : List α
  notArray : ConfigFault

namespace ListRule

variable {α : Type} (rule : ListRule α) (ms : Members)

inductive Denotes : List α → Prop where
  | missing (absent : Members.find? (.str rule.key) ms = none) : Denotes rule.usual
  | listed {xs : List Value} {as : List α} (found : Members.find? (.str rule.key) ms = some (.array xs))
      (denoted : List.Forall₂ rule.denotes xs as) : Denotes as

/-- The first fault in the list of an object, with its place: the key, and the index in the list if it is a list. -/
inductive Faulty : (place : String) → ConfigFault → Prop where
  | notArray {v : Value} (found : Members.find? (.str rule.key) ms = some v) (noList : ∀ xs, v ≠ .array xs) :
      Faulty rule.key rule.notArray
  | entry {before after : List Value} {x : Value} {fault : ConfigFault}
      (found : Members.find? (.str rule.key) ms = some (.array (before ++ x :: after)))
      (denoted : ∀ y ∈ before, ∃ a, rule.denotes y a) (faulty : rule.defect before.length x fault) :
      Faulty (entryPlace rule.key before.length) fault

def read (entry : Nat → Value → Except ConfigFault α) : Except ConfigFault (List α) :=
  match Members.find? (.str rule.key) ms with
  | none => .ok rule.usual
  | some (.array xs) => entries entry 0 xs
  | some _ => .error rule.notArray

variable {rule ms} {entry : Nat → Value → Except ConfigFault α} (h : Judges entry rule.denotes rule.defect)

include h

theorem read_eq_ok_iff {as : List α} : rule.read ms entry = .ok as ↔ rule.Denotes ms as := by
  constructor
  · intro hread
    unfold read at hread
    split at hread
    · next absent =>
        cases hread
        exact .missing absent
    · next found => exact .listed found (h.entries_eq_ok_iff.mp hread)
    · cases hread
  · intro hdenotes
    cases hdenotes with
    | missing absent => simp only [read, absent]
    | listed found denoted => simp only [read, found, h.entries_eq_ok_iff.mpr denoted]

theorem read_eq_error_iff {fault : ConfigFault} :
    rule.read ms entry = .error fault ↔ ∃ place, rule.Faulty ms place fault := by
  constructor
  · intro hread
    unfold read at hread
    split at hread
    · cases hread
    · next found =>
        obtain ⟨before, x, after, rfl, hbefore, hx⟩ := h.entries_eq_error_iff.mp hread
        rw [Nat.zero_add] at hx
        exact ⟨_, .entry found hbefore hx⟩
    · next noList found =>
        cases hread
        exact ⟨_, .notArray found noList⟩
  · rintro ⟨place, hfaulty⟩
    cases hfaulty with
    | @notArray v found noList =>
        cases v with
        | array xs => exact absurd rfl (noList xs)
        | _ => simp only [read, found]
    | @entry before after x _ found denoted faulty =>
        simp only [read, found]
        exact h.entries_eq_error_iff.mpr ⟨before, x, after, rfl, denoted, by rwa [Nat.zero_add]⟩

end ListRule

/-! ### The lists of a configuration -/

def formatRule : ListRule FormatOption := ⟨"format", DenotesFormat, FormatDefect, defaultFormats, .formatNotArray⟩

def mockRule : ListRule MockOption := ⟨"mock", DenotesMock, MockDefect, [], .mockNotArray⟩

theorem formatsOf_eq (ms : Members) : formatsOf ms = formatRule.read ms formatEntry := rfl

theorem mocksOf_eq (ms : Members) : mocksOf ms = mockRule.read ms mockEntry := rfl

/-! ### Configurations -/

/-- The values that describe a configuration: objects with a list of formats and a list of directives, of which each
may be missing. -/
inductive Describes : Value → Config → Prop where
  | intro {ms : Members} {formats : List FormatOption} {mocks : List MockOption}
      (denotesFormats : formatRule.Denotes ms formats) (denotesMocks : mockRule.Denotes ms mocks) :
      Describes (.object ms) ⟨formats, mocks⟩

/-- The fault of a value that describes no configuration, with its place. A fault in the directives is the first only
if there is none in the formats. -/
inductive Faulty : Value → (place : String) → ConfigFault → Prop where
  | notObject {v : Value} (noObject : ∀ ms, v ≠ .object ms) : Faulty v "config" .notObject
  | formats {ms : Members} {place : String} {fault : ConfigFault} (faulty : formatRule.Faulty ms place fault) :
      Faulty (.object ms) place fault
  | mocks {ms : Members} {formats : List FormatOption} {place : String} {fault : ConfigFault}
      (denoted : formatRule.Denotes ms formats) (faulty : mockRule.Faulty ms place fault) :
      Faulty (.object ms) place fault

theorem ofValue_eq_ok_iff {v : Value} {config : Config} : ofValue v = .ok config ↔ Describes v config := by
  cases v with
  | object ms =>
      simp only [ofValue, formatsOf_eq, mocksOf_eq, bind_eq_ok_iff, pure_eq_ok, Except.ok.injEq,
        @ListRule.read_eq_ok_iff _ formatRule ms _ judges_formatEntry,
        @ListRule.read_eq_ok_iff _ mockRule ms _ judges_mockEntry]
      constructor
      · rintro ⟨formats, hformats, mocks, hmocks, rfl⟩
        exact .intro hformats hmocks
      · rintro ⟨hformats, hmocks⟩
        exact ⟨_, hformats, _, hmocks, rfl⟩
  | _ =>
      constructor
      · intro h
        cases h
      · intro h
        cases h

theorem ofValue_eq_error_iff {v : Value} {fault : ConfigFault} :
    ofValue v = .error fault ↔ ∃ place, Faulty v place fault := by
  cases v with
  | object ms =>
      simp only [ofValue, formatsOf_eq, mocksOf_eq, bind_eq_error_iff, pure_eq_ok, reduceCtorEq, and_false,
        exists_false, or_false, @ListRule.read_eq_ok_iff _ formatRule ms _ judges_formatEntry,
        @ListRule.read_eq_error_iff _ formatRule ms _ judges_formatEntry,
        @ListRule.read_eq_error_iff _ mockRule ms _ judges_mockEntry]
      constructor
      · rintro (⟨place, hformats⟩ | ⟨formats, hformats, place, hmocks⟩)
        · exact ⟨place, .formats hformats⟩
        · exact ⟨place, .mocks hformats hmocks⟩
      · rintro ⟨place, hfaulty⟩
        cases hfaulty with
        | notObject noObject => exact absurd rfl (noObject ms)
        | formats faulty => exact .inl ⟨place, faulty⟩
        | mocks denoted faulty => exact .inr ⟨_, denoted, place, faulty⟩
  | _ =>
      constructor
      · intro h
        cases h
        exact ⟨_, .notObject (by simp)⟩
      · rintro ⟨place, hfaulty⟩
        cases hfaulty
        rfl

theorem message_notObject : ConfigFault.notObject.message = "config" ++ " must be a JSON object" := by
  unfold ConfigFault.message
  simp only [String.reduceAppend]

theorem message_formatNotArray : ConfigFault.formatNotArray.message = "format" ++ ": must be an array" := by
  unfold ConfigFault.message
  simp only [String.reduceAppend]

theorem message_mockNotArray : ConfigFault.mockNotArray.message = "mock" ++ ": must be an array" := by
  unfold ConfigFault.message
  simp only [String.reduceAppend]

/-- A message around an index begins with the place of the entry with this index, if its texts are cut at the bracket
before the index and at the one after it. -/
theorem eq_entryPlace_append {message key reason : String} {index : Nat} (opening closing : String)
    (hmessage : message = opening ++ toString index ++ closing) (hopening : opening = key ++ "[")
    (hclosing : closing = "]" ++ reason) : message = entryPlace key index ++ reason := by
  rw [hmessage, hopening, hclosing, entryPlace]
  simp only [String.append_assoc]

theorem message_formatTitle (index : Nat) :
    (ConfigFault.formatTitle index).message = entryPlace "format" index ++ ".title: must be a string" :=
  eq_entryPlace_append "format[" "].title: must be a string" rfl (by simp) (by simp)

theorem message_formatEntry (index : Nat) : (ConfigFault.formatEntry index).message =
    entryPlace "format" index ++ ": must be a string or an object with a 'name'" :=
  eq_entryPlace_append "format[" "]: must be a string or an object with a 'name'" rfl (by simp) (by simp)

theorem message_mockEntry (index : Nat) : (ConfigFault.mockEntry index).message =
    entryPlace "mock" index ++ ": must be an object with string 'name' and 'mock'" :=
  eq_entryPlace_append "mock[" "]: must be an object with string 'name' and 'mock'" rfl (by simp) (by simp)

/-- The message of a fault in a list begins with its place, if those of the faults that the list may have do. -/
theorem ListRule.Faulty.exists_message {α : Type} {rule : ListRule α} {ms : Members} {place : String}
    {fault : ConfigFault} (h : rule.Faulty ms place fault)
    (notArray : ∃ reason, rule.notArray.message = rule.key ++ reason)
    (defect : ∀ index v fault, rule.defect index v fault →
      ∃ reason, fault.message = entryPlace rule.key index ++ reason) :
    ∃ reason, fault.message = place ++ reason := by
  cases h with
  | notArray _ _ => exact notArray
  | entry _ _ faulty => exact defect _ _ _ faulty

theorem formatRule_defect_message (index : Nat) (v : Value) (fault : ConfigFault)
    (h : FormatDefect index v fault) : ∃ reason, fault.message = entryPlace formatRule.key index ++ reason := by
  cases h with
  | title _ _ _ _ => exact ⟨_, message_formatTitle index⟩
  | entry _ _ => exact ⟨_, message_formatEntry index⟩

theorem mockRule_defect_message (index : Nat) (v : Value) (fault : ConfigFault)
    (h : MockDefect index v fault) : ∃ reason, fault.message = entryPlace mockRule.key index ++ reason := by
  cases h with
  | entry _ => exact ⟨_, message_mockEntry index⟩

/-- The message of a fault begins with its place. -/
theorem Faulty.exists_message {v : Value} {place : String} {fault : ConfigFault} (h : Faulty v place fault) :
    ∃ reason, fault.message = place ++ reason := by
  cases h with
  | notObject _ => exact ⟨_, message_notObject⟩
  | formats faulty => exact faulty.exists_message ⟨_, message_formatNotArray⟩ formatRule_defect_message
  | mocks _ faulty => exact faulty.exists_message ⟨_, message_mockNotArray⟩ mockRule_defect_message

/-! ### Directives by name -/

theorem mockDirective_eq_some_iff {config : Config} {name mock : String} :
    config.mockDirective name = some mock ↔ ∃ before after,
      config.mocks = before ++ ⟨name, mock⟩ :: after ∧ ∀ option ∈ before, option.name ≠ name := by
  simp only [mockDirective, Option.map_eq_some_iff, List.find?_eq_some_iff_append, decide_eq_true_eq,
    Bool.not_eq_true', decide_eq_false_iff_not]
  constructor
  · rintro ⟨option, ⟨rfl, before, after, hmocks, hbefore⟩, rfl⟩
    exact ⟨before, after, hmocks, hbefore⟩
  · rintro ⟨before, after, hmocks, hbefore⟩
    exact ⟨⟨name, mock⟩, ⟨rfl, before, after, hmocks, hbefore⟩, rfl⟩

theorem mockDirective_eq_none_iff {config : Config} {name : String} :
    config.mockDirective name = none ↔ ∀ option ∈ config.mocks, option.name ≠ name := by
  simp [mockDirective]

/-- Reading a configuration accepts exactly the values that describe one and loses nothing: what comes of it has the
listed formats, or the usual ones, and the listed directives, one for one and in their order. Of any other value it
reports the first fault, in words that begin with the place of the fault. And the directive of a name is that of the
first entry with this name, or none if there is no such entry. -/
theorem ofValue_exact (v : Value) :
    (∀ config, ofValue v = .ok config ↔ Describes v config) ∧
      (∀ fault, ofValue v = .error fault ↔ ∃ place, Faulty v place fault) ∧
      (∀ place fault, Faulty v place fault → ∃ reason, fault.message = place ++ reason) ∧
      ∀ (config : Config) (name : String),
        (∀ mock, config.mockDirective name = some mock ↔ ∃ before after,
          config.mocks = before ++ ⟨name, mock⟩ :: after ∧ ∀ option ∈ before, option.name ≠ name) ∧
        (config.mockDirective name = none ↔ ∀ option ∈ config.mocks, option.name ≠ name) :=
  ⟨fun _ => ofValue_eq_ok_iff, fun _ => ofValue_eq_error_iff, fun _ _ h => h.exists_message,
    fun _ _ => ⟨fun _ => mockDirective_eq_some_iff, mockDirective_eq_none_iff⟩⟩

/-- A fault in the formats is the one that is reported, wherever the directives stand and however bad they are. -/
example : ofValue (.object [(.str "mock", .null), (.str "format", .array [.str "date", .int 1])]) =
    .error (.formatEntry 1) := rfl

end SchemaForge.Config
