import Mathlib.Data.List.TakeWhile
import SchemaForge.Proofs.Answers
import SchemaForge.Proofs.Json.Numbers
import SchemaForge.Proofs.Json.Texts
import SchemaForge.Proofs.Value.Readable

/-!
What is written reads back as it was, in every style that puts nothing but white space between the parts. A
value is read to its end at whatever level it stands, since nothing that could belong to it follows; its
parts are read one after the other, each up to the separator or the bracket after it.
-/

namespace SchemaForge.Json

/-! ### White space -/

theorem skipSpace_append {spaces : List Char} (h : ∀ c ∈ spaces, isSpace c = true) (cs : List Char) :
    skipSpace (spaces ++ cs) = skipSpace cs :=
  List.dropWhile_append_of_pos h

theorem skipSpace_of_not_isSpace {c : Char} (h : isSpace c = false) (cs : List Char) :
    skipSpace (c :: cs) = c :: cs :=
  List.dropWhile_cons_of_neg (Bool.eq_false_iff.mp h)

/-- A style that puts a comma after an item, a colon after a key, and beside them only white space. -/
structure Style.IsPlain (style : Style) : Prop where
  items : ∃ spaces, style.itemSeparator = ',' :: spaces ∧ ∀ c ∈ spaces, isSpace c = true
  keys : ∃ spaces, style.keySeparator = ':' :: spaces ∧ ∀ c ∈ spaces, isSpace c = true
  indent : ∀ unit, style.indent = some unit → ∀ c ∈ unit, isSpace c = true

theorem isPlain_compact : Style.compact.IsPlain :=
  ⟨⟨[' '], rfl, List.forall_mem_singleton.mpr rfl⟩, ⟨[' '], rfl, List.forall_mem_singleton.mpr rfl⟩,
    by simp [Style.compact]⟩

theorem isPlain_minified : Style.minified.IsPlain :=
  ⟨⟨[], rfl, List.forall_mem_nil _⟩, ⟨[], rfl, List.forall_mem_nil _⟩, by simp [Style.minified]⟩

theorem isPlain_indented {unit : List Char} (h : ∀ c ∈ unit, isSpace c = true) :
    (Style.indented unit).IsPlain :=
  ⟨⟨[], rfl, List.forall_mem_nil _⟩, ⟨[' '], rfl, List.forall_mem_singleton.mpr rfl⟩,
    fun _ heq => Option.some.inj heq ▸ h⟩

section Plain

variable {style : Style} (plain : style.IsPlain)

include plain

theorem isSpace_of_mem_lineBreak {level : Nat} {c : Char} (h : c ∈ style.lineBreak level) :
    isSpace c = true := by
  unfold Style.lineBreak at h
  split at h
  · cases h
  · next unit hunit =>
      rcases List.mem_cons.mp h with rfl | h
      · rfl
      · obtain ⟨cs, hcs, hc⟩ := List.mem_flatten.mp h
        exact plain.indent unit hunit c (List.eq_of_mem_replicate hcs ▸ hc)

theorem skipSpace_lineBreak (level : Nat) (cs : List Char) :
    skipSpace (style.lineBreak level ++ cs) = skipSpace cs :=
  skipSpace_append (fun _ => isSpace_of_mem_lineBreak plain) cs

end Plain

/-! ### Items -/

/-- The items after the first one, each behind a separator, and the bracket that closes them. -/
def furtherItems (style : Style) (level : Nat) (closing : Char) : List (List Char) → List Char
  | [] => style.lineBreak level ++ [closing]
  | item :: items =>
      style.itemSeparator ++ style.lineBreak (level + 1) ++ item ++ furtherItems style level closing items

theorem enclose_cons (style : Style) (level : Nat) (opening closing : Char) (item : List Char)
    (items : List (List Char)) :
    enclose style level opening closing (item :: items) =
      opening :: (style.lineBreak (level + 1) ++ item ++ furtherItems style level closing items) := by
  have hjoin : (List.intersperse (style.itemSeparator ++ style.lineBreak (level + 1))
        (item :: items)).flatten ++ (style.lineBreak level ++ [closing]) =
      item ++ furtherItems style level closing items := by
    induction items generalizing item with
    | nil => simp [furtherItems]
    | cons next items ih =>
        simp only [furtherItems, List.intersperse_cons_cons, List.flatten_cons, List.append_assoc] at ih ⊢
        rw [ih next]
  rw [enclose]
  · simp only [List.append_assoc, hjoin]
  · simp

/-- No number goes on behind a separator or a bracket. -/
theorem endsNumber_of_not_isDigit {c : Char} (hdigit : c.isDigit = false) (hpoint : c ≠ '.')
    (hlower : c ≠ 'e') (hupper : c ≠ 'E') (rest : List Char) : EndsNumber (c :: rest) := by
  intro d hd
  rw [← Option.some.inj hd]
  exact ⟨hdigit, hpoint, hlower, hupper⟩

theorem endsNumber_spaces {spaces : List Char} (h : ∀ c ∈ spaces, isSpace c = true) :
    EndsNumber spaces := by
  intro c hc
  have hspace := h c (List.mem_of_mem_head? hc)
  simp only [isSpace, Bool.or_eq_true, decide_eq_true_eq] at hspace
  rcases hspace with ((rfl | rfl) | rfl) | rfl <;> decide

theorem endsNumber_nil : EndsNumber [] := endsNumber_spaces (List.forall_mem_nil _)

section Plain

variable {style : Style} (plain : style.IsPlain)

include plain

theorem endsNumber_furtherItems {closing : Char} (hclosing : ∀ rest, EndsNumber (closing :: rest))
    (level : Nat) (items : List (List Char)) (rest : List Char) :
    EndsNumber (furtherItems style level closing items ++ rest) := by
  cases items with
  | nil =>
      rw [furtherItems, Style.lineBreak]
      split
      · exact hclosing rest
      · exact endsNumber_of_not_isDigit (by decide) (by decide) (by decide) (by decide) _
  | cons item items =>
      obtain ⟨spaces, hseparator, -⟩ := plain.items
      rw [furtherItems, hseparator]
      exact endsNumber_of_not_isDigit (by decide) (by decide) (by decide) (by decide) _

/-- Behind the last item the bracket is found. -/
theorem skipSpace_furtherItems_nil {closing : Char} (hclosing : isSpace closing = false) (level : Nat)
    (rest : List Char) :
    skipSpace (furtherItems style level closing [] ++ rest) = closing :: rest := by
  rw [furtherItems, List.append_assoc, skipSpace_lineBreak plain]
  exact skipSpace_of_not_isSpace hclosing rest

/-- Behind any other item a comma is found, and the next item behind the comma. -/
theorem exists_skipSpace_furtherItems_cons (closing : Char) (level : Nat) (item : List Char)
    (items : List (List Char)) (rest : List Char) :
    ∃ cs, skipSpace (furtherItems style level closing (item :: items) ++ rest) = ',' :: cs ∧
      skipSpace cs = skipSpace (item ++ (furtherItems style level closing items ++ rest)) := by
  obtain ⟨spaces, hseparator, hspaces⟩ := plain.items
  refine ⟨spaces ++ (style.lineBreak (level + 1) ++
    (item ++ (furtherItems style level closing items ++ rest))), ?_, ?_⟩
  · simp only [furtherItems, hseparator, List.cons_append, List.append_assoc]
    exact skipSpace_of_not_isSpace rfl _
  · rw [skipSpace_append hspaces, skipSpace_lineBreak plain]

end Plain

/-! ### The beginnings of values -/

/-- Whether a value can begin with a character, as it cannot with a space, a closing bracket or a byte order
mark. -/
def OpensValue (c : Char) : Prop := isSpace c = false ∧ c ≠ ']' ∧ c ≠ '\x7d' ∧ c ≠ '\ufeff'

instance (c : Char) : Decidable (OpensValue c) := inferInstanceAs (Decidable (_ ∧ _))

/-- Whether a value that can begin with a character is no text, array or object. -/
def OpensAtom (c : Char) : Prop := OpensValue c ∧ c ≠ '"' ∧ c ≠ '[' ∧ c ≠ '\x7b'

instance (c : Char) : Decidable (OpensAtom c) := inferInstanceAs (Decidable (_ ∧ _))

theorem opensAtom_of_isDigit {c : Char} (h : c.isDigit = true) : OpensAtom c := by
  have hne : ∀ d : Char, d.isDigit = false → c ≠ d := fun d hd => (ne_of_isDigit h hd).symm
  refine ⟨⟨?_, hne _ rfl, hne _ rfl, hne _ rfl⟩, hne _ rfl, hne _ rfl, hne _ rfl⟩
  simp [isSpace, hne]

theorem StartsNumber.exists_head {text : List Char} (h : StartsNumber text) :
    ∃ c cs, text = c :: cs ∧ OpensAtom c := by
  obtain ⟨c, cs, hc, rfl | rfl⟩ := h
  · exact ⟨c, cs, rfl, opensAtom_of_isDigit hc⟩
  · exact ⟨'-', c :: cs, rfl, by decide⟩

/-- A scalar that is no text begins as none. -/
theorem exists_head_writeBare {s : Scalar} (hs : ¬ s.IsText) :
    ∃ c cs, writeBare s = c :: cs ∧ OpensAtom c := by
  cases s with
  | null => exact ⟨_, _, rfl, by decide⟩
  | bool b => cases b <;> exact ⟨_, _, rfl, by decide⟩
  | int i => exact (startsNumber_intText i).exists_head
  | float x =>
      cases x with
      | nan => exact ⟨_, _, rfl, by decide⟩
      | infinite negative => cases negative <;> exact ⟨_, _, rfl, by decide⟩
      | finite negative units h => exact (startsNumber_finiteText h negative).exists_head
  | str s => exact absurd ⟨s, rfl⟩ hs

theorem writeScalar_eq_writeBare {s : Scalar} (hs : ¬ s.IsText) : writeScalar s = writeBare s := by
  cases s with
  | str s => exact absurd ⟨s, rfl⟩ hs
  | _ => rfl

theorem exists_head_writeValue (style : Style) (level : Nat) (v : Value) :
    ∃ c cs, writeValue style level v = c :: cs ∧ OpensValue c := by
  cases v with
  | scalar s =>
      by_cases hs : s.IsText
      · obtain ⟨t, rfl⟩ := hs
        exact ⟨'"', _, rfl, by decide⟩
      · obtain ⟨c, cs, hcs, hc, -⟩ := exists_head_writeBare hs
        exact ⟨c, cs, by rw [writeValue, writeScalar_eq_writeBare hs, hcs], hc⟩
  | array xs =>
      rw [writeValue]
      cases writeElements style (level + 1) xs with
      | nil => exact ⟨'[', _, rfl, by decide⟩
      | cons item items =>
          rw [enclose_cons]
          exact ⟨'[', _, rfl, by decide⟩
  | object ms =>
      rw [writeValue]
      cases writeMembers style (level + 1) ms with
      | nil => exact ⟨'\x7b', _, rfl, by decide⟩
      | cons item items =>
          rw [enclose_cons]
          exact ⟨'\x7b', _, rfl, by decide⟩

/-- No space is skipped where a value begins. -/
theorem skipSpace_writeValue (style : Style) (level : Nat) (v : Value) (rest : List Char) :
    skipSpace (writeValue style level v ++ rest) = writeValue style level v ++ rest := by
  obtain ⟨c, cs, hcs, hc⟩ := exists_head_writeValue style level v
  rw [hcs]
  exact skipSpace_of_not_isSpace hc.1 _

/-! ### Scalars -/

theorem readAtom_of_mem_words {word : List Char × Value} (h : word ∈ words) (rest : List Char) :
    readAtom (word.1 ++ rest) = .ok (word.2, rest) := by
  simp only [words, List.mem_cons, List.not_mem_nil, or_false] at h
  rcases h with rfl | rfl | rfl | rfl | rfl | rfl <;> rfl

theorem readAtom_writeBare {s : Scalar} (fits : s.IsReadable) (hs : ¬ s.IsText) {rest : List Char}
    (hrest : EndsNumber rest) : readAtom (writeBare s ++ rest) = .ok (.scalar s, rest) := by
  cases s with
  | null => exact readAtom_of_mem_words (List.mem_of_getElem? (i := 0) rfl) rest
  | bool b =>
      cases b with
      | true => exact readAtom_of_mem_words (List.mem_of_getElem? (i := 1) rfl) rest
      | false => exact readAtom_of_mem_words (List.mem_of_getElem? (i := 2) rfl) rest
  | int i =>
      have hlength := Scalar.isReadable_int_iff.mp fits
      rw [writeBare, readAtom_of_startsNumber ((startsNumber_intText i).append rest)]
      exact readNumber_intText hlength hrest
  | float x =>
      cases x with
      | nan => exact readAtom_of_mem_words (List.mem_of_getElem? (i := 3) rfl) rest
      | infinite negative =>
          cases negative with
          | false => exact readAtom_of_mem_words (List.mem_of_getElem? (i := 4) rfl) rest
          | true => exact readAtom_of_mem_words (List.mem_of_getElem? (i := 5) rfl) rest
      | finite negative units h =>
          have hatom := readAtom_of_startsNumber ((startsNumber_finiteText h negative).append rest)
          exact hatom.trans (readNumber_finiteText h negative hrest)
  | str s => exact absurd ⟨s, rfl⟩ hs

/-- The text of a value is read to its end, at any level, if nothing that could belong to a number
follows. The fuel that it takes is at most its length. -/
def ReadsBack (style : Style) (v : Value) : Prop :=
  ∀ (level fuel : Nat) (rest : List Char), EndsNumber rest → (writeValue style level v).length ≤ fuel →
    readValue fuel (writeValue style level v ++ rest) = .ok (v, rest)

theorem readValue_of_opensAtom {c : Char} (h : OpensAtom c) (fuel : Nat) (cs : List Char) :
    readValue (fuel + 1) (c :: cs) = readAtom (c :: cs) := by
  obtain ⟨-, hquote, hbracket, hbrace⟩ := h
  unfold readValue
  split
  · next heq => exact absurd (List.cons.inj heq).1 hquote
  · next heq => exact absurd (List.cons.inj heq).1 hbracket
  · next heq => exact absurd (List.cons.inj heq).1 hbrace
  · rfl

theorem readsBack_scalar (style : Style) {s : Scalar} (fits : s.IsReadable) :
    ReadsBack style (.scalar s) := by
  intro level fuel rest hrest hfuel
  obtain ⟨c, cs, hcs, -⟩ := exists_head_writeValue style level (.scalar s)
  cases fuel with
  | zero => simp [hcs] at hfuel
  | succ fuel =>
      by_cases hs : s.IsText
      · obtain ⟨t, rfl⟩ := hs
        obtain ⟨cs, hcs, hread⟩ := readText_writeText t.toList rest
        rw [writeValue, writeScalar, hcs, readValue, hread]
        exact congrArg (fun t => Except.ok (Value.str t, rest)) String.ofList_toList
      · obtain ⟨c, cs, hcs, hc⟩ := exists_head_writeBare hs
        rw [writeValue, writeScalar_eq_writeBare hs, hcs, List.cons_append, readValue_of_opensAtom hc,
          ← List.cons_append, ← hcs, readAtom_writeBare fits hs hrest]

/-! ### Arrays and objects -/

theorem endsNumber_bracket (rest : List Char) : EndsNumber (']' :: rest) :=
  endsNumber_of_not_isDigit (by decide) (by decide) (by decide) (by decide) rest

theorem endsNumber_brace (rest : List Char) : EndsNumber ('\x7d' :: rest) :=
  endsNumber_of_not_isDigit (by decide) (by decide) (by decide) (by decide) rest

def writeMember (style : Style) (level : Nat) (m : Scalar × Value) : List Char :=
  writeKey m.1 ++ style.keySeparator ++ writeValue style level m.2

theorem writeMembers_cons (style : Style) (level : Nat) (m : Scalar × Value) (ms : Members) :
    writeMembers style level (m :: ms) = writeMember style level m :: writeMembers style level ms := by
  rw [writeMembers, writeMember]

theorem exists_writeMember_cons (style : Style) (level : Nat) (m : Scalar × Value) :
    ∃ cs, writeMember style level m = '"' :: cs :=
  ⟨_, rfl⟩

theorem skipSpace_writeMember (style : Style) (level : Nat) (m : Scalar × Value) (rest : List Char) :
    skipSpace (writeMember style level m ++ rest) = writeMember style level m ++ rest :=
  skipSpace_of_not_isSpace rfl _

theorem length_writeValue_le_writeMember (style : Style) (level : Nat) (k : Scalar) (v : Value) :
    (writeValue style level v).length ≤ (writeMember style level (k, v)).length := by
  rw [writeMember, List.length_append]
  exact Nat.le_add_left _ _

/-- A key is read with the colon behind it, up to its value. -/
theorem readKey_writeMember {style : Style} (plain : style.IsPlain) (level : Nat) (key : String) (v : Value)
    (rest : List Char) :
    readKey (writeMember style level (.str key, v) ++ rest) =
      .ok (.str key, writeValue style level v ++ rest) := by
  obtain ⟨spaces, hseparator, hspaces⟩ := plain.keys
  obtain ⟨cs, hcs, hread⟩ := readText_writeText key.toList
    (style.keySeparator ++ (writeValue style level v ++ rest))
  have hcolon : skipSpace (style.keySeparator ++ (writeValue style level v ++ rest)) =
      ':' :: (spaces ++ (writeValue style level v ++ rest)) := by
    rw [hseparator]
    exact skipSpace_of_not_isSpace rfl _
  have hvalue : skipSpace (spaces ++ (writeValue style level v ++ rest)) =
      writeValue style level v ++ rest := by
    rw [skipSpace_append hspaces, skipSpace_writeValue]
  rw [writeMember, List.append_assoc, List.append_assoc, writeKey, writeBare, hcs]
  simp only [readKey, hread, ok_bind, hcolon, hvalue, String.ofList_toList, pure_eq_ok]

section Plain

variable {style : Style} (plain : style.IsPlain)

include plain

/-- What is left after an item is shorter by the item and by what stands behind it. -/
theorem length_item_lt {closing : Char} {level : Nat} {item : List Char} {items : List (List Char)}
    {fuel : Nat} (h : (item ++ furtherItems style level closing items).length ≤ fuel) :
    item.length < fuel ∧
      ∀ next further, items = next :: further →
        (next ++ furtherItems style level closing further).length < fuel := by
  rw [List.length_append] at h
  cases items with
  | nil =>
      refine ⟨?_, by simp⟩
      simp only [furtherItems, List.length_append, List.length_singleton] at h
      omega
  | cons next further =>
      obtain ⟨spaces, hseparator, -⟩ := plain.items
      simp only [furtherItems, hseparator, List.length_append, List.length_cons] at h
      refine ⟨by omega, ?_⟩
      rintro _ _ ⟨rfl, rfl⟩
      rw [List.length_append]
      omega

/-- An item is read up to what stands behind it. -/
theorem ReadsBack.readValue_item {v : Value} (hv : ReadsBack style v) {closing : Char}
    (hclosing : ∀ cs, EndsNumber (closing :: cs)) (level : Nat) (items : List (List Char))
    (rest : List Char) {fuel : Nat} (hfuel : (writeValue style (level + 1) v).length ≤ fuel) :
    readValue fuel (writeValue style (level + 1) v ++ (furtherItems style level closing items ++ rest)) =
      .ok (v, furtherItems style level closing items ++ rest) :=
  hv (level + 1) fuel _ (endsNumber_furtherItems plain hclosing level items rest) hfuel

/-- The elements of an array are read up to its bracket. -/
theorem readElements_append (level : Nat) (rest : List Char) :
    ∀ (xs : List Value) (x : Value) (fuel : Nat), (∀ y ∈ x :: xs, ReadsBack style y) →
      (writeValue style (level + 1) x ++
        furtherItems style level ']' (writeElements style (level + 1) xs)).length ≤ fuel →
      readElements fuel (writeValue style (level + 1) x ++
        (furtherItems style level ']' (writeElements style (level + 1) xs) ++ rest)) =
          .ok (x :: xs, rest) := by
  intro xs
  induction xs with
  | nil =>
      intro x fuel hread hfuel
      obtain ⟨hlength, -⟩ := length_item_lt plain hfuel
      obtain ⟨fuel, rfl⟩ := Nat.exists_eq_add_of_lt hlength
      have hx := (hread x List.mem_cons_self).readValue_item plain endsNumber_bracket level [] rest
        (Nat.le_add_right _ fuel)
      have hclose := @skipSpace_furtherItems_nil _ plain ']' rfl level rest
      simp only [writeElements, readElements, hx, ok_bind, hclose, pure_eq_ok]
  | cons y xs ih =>
      intro x fuel hread hfuel
      obtain ⟨hlength, hnext⟩ := length_item_lt plain hfuel
      obtain ⟨fuel, rfl⟩ := Nat.exists_eq_add_of_lt hlength
      have hx := (hread x List.mem_cons_self).readValue_item plain endsNumber_bracket level
        (writeElements style (level + 1) (y :: xs)) rest (Nat.le_add_right _ fuel)
      obtain ⟨cs, hcomma, hy⟩ := exists_skipSpace_furtherItems_cons plain ']' level
        (writeValue style (level + 1) y) (writeElements style (level + 1) xs) rest
      rw [skipSpace_writeValue] at hy
      have hxs := ih y _ (fun z hz => hread z (List.mem_cons_of_mem _ hz))
        (Nat.le_of_lt_succ (hnext _ _ (by rw [writeElements])))
      rw [writeElements] at hx ⊢
      simp only [readElements, hx, ok_bind, hcomma, hy, hxs, pure_eq_ok]

theorem readsBack_array {xs : List Value} (hxs : ∀ x ∈ xs, ReadsBack style x) :
    ReadsBack style (.array xs) := by
  intro level fuel rest hrest hfuel
  cases xs with
  | nil =>
      cases fuel with
      | zero => simp [writeValue, writeElements, enclose] at hfuel
      | succ fuel => rfl
  | cons x xs =>
      rw [writeValue, writeElements, enclose_cons] at hfuel ⊢
      cases fuel with
      | zero => simp at hfuel
      | succ fuel =>
          obtain ⟨c, cs, hcs, -, hbracket, -⟩ := exists_head_writeValue style (level + 1) x
          have hread := readElements_append plain level rest xs x fuel hxs (by
            simp only [List.length_cons, List.length_append] at hfuel ⊢
            omega)
          have hskip : skipSpace (style.lineBreak (level + 1) ++ (writeValue style (level + 1) x ++
              (furtherItems style level ']' (writeElements style (level + 1) xs) ++ rest))) =
              writeValue style (level + 1) x ++
                (furtherItems style level ']' (writeElements style (level + 1) xs) ++ rest) := by
            rw [skipSpace_lineBreak plain, skipSpace_writeValue]
          simp only [List.cons_append, List.append_assoc, readValue, hskip]
          rw [hcs, List.cons_append] at hread ⊢
          split
          · next heq => exact absurd (List.cons.inj heq).1 hbracket
          · simp only [hread, ok_bind, pure_eq_ok]

/-- The members of an object are read up to its brace. -/
theorem readMembers_append (level : Nat) (rest : List Char) :
    ∀ (ms : Members) (m : Scalar × Value) (fuel : Nat),
      (∀ n ∈ m :: ms, n.1.IsText ∧ ReadsBack style n.2) →
      (writeMember style (level + 1) m ++
        furtherItems style level '\x7d' (writeMembers style (level + 1) ms)).length ≤ fuel →
      readMembers fuel (writeMember style (level + 1) m ++
        (furtherItems style level '\x7d' (writeMembers style (level + 1) ms) ++ rest)) =
          .ok (m :: ms, rest) := by
  intro ms
  induction ms with
  | nil =>
      rintro ⟨k, v⟩ fuel hread hfuel
      obtain ⟨⟨key, rfl⟩, hv⟩ := hread _ List.mem_cons_self
      obtain ⟨hlength, -⟩ := length_item_lt plain hfuel
      obtain ⟨fuel, rfl⟩ := Nat.exists_eq_add_of_lt hlength
      have hvalue := hv.readValue_item plain endsNumber_brace level [] rest
        (@Nat.le_add_right_of_le _ _ fuel (length_writeValue_le_writeMember style (level + 1) (.str key) v))
      have hclose := @skipSpace_furtherItems_nil _ plain '\x7d' rfl level rest
      rw [writeMembers]
      simp only [readMembers, readKey_writeMember plain, hvalue, ok_bind, hclose, pure_eq_ok]
  | cons n ms ih =>
      rintro ⟨k, v⟩ fuel hread hfuel
      obtain ⟨⟨key, rfl⟩, hv⟩ := hread _ List.mem_cons_self
      obtain ⟨hlength, hnext⟩ := length_item_lt plain hfuel
      obtain ⟨fuel, rfl⟩ := Nat.exists_eq_add_of_lt hlength
      have hvalue := hv.readValue_item plain endsNumber_brace level
        (writeMembers style (level + 1) (n :: ms)) rest
        (@Nat.le_add_right_of_le _ _ fuel (length_writeValue_le_writeMember style (level + 1) (.str key) v))
      obtain ⟨cs, hcomma, hn⟩ := exists_skipSpace_furtherItems_cons plain '\x7d' level
        (writeMember style (level + 1) n) (writeMembers style (level + 1) ms) rest
      rw [skipSpace_writeMember] at hn
      have hms := ih n _ (fun p hp => hread p (List.mem_cons_of_mem _ hp))
        (Nat.le_of_lt_succ (hnext _ _ (writeMembers_cons style (level + 1) n ms)))
      rw [writeMembers_cons] at hvalue ⊢
      simp only [readMembers, readKey_writeMember plain, hvalue, ok_bind, hcomma, hn, hms, pure_eq_ok]

theorem readsBack_object {ms : Members} (text : ∀ m ∈ ms, m.1.IsText) (unique : (Members.keys ms).Nodup)
    (hms : ∀ m ∈ ms, ReadsBack style m.2) : ReadsBack style (.object ms) := by
  intro level fuel rest hrest hfuel
  cases ms with
  | nil =>
      cases fuel with
      | zero => simp [writeValue, writeMembers, enclose] at hfuel
      | succ fuel => rfl
  | cons m ms =>
      rw [writeValue, writeMembers_cons, enclose_cons] at hfuel ⊢
      cases fuel with
      | zero => simp at hfuel
      | succ fuel =>
          have hread := readMembers_append plain level rest ms m fuel
            (fun n hn => ⟨text n hn, hms n hn⟩) (by
              simp only [List.length_cons, List.length_append] at hfuel ⊢
              omega)
          have hskip : skipSpace (style.lineBreak (level + 1) ++ (writeMember style (level + 1) m ++
              (furtherItems style level '\x7d' (writeMembers style (level + 1) ms) ++ rest))) =
              writeMember style (level + 1) m ++
                (furtherItems style level '\x7d' (writeMembers style (level + 1) ms) ++ rest) := by
            rw [skipSpace_lineBreak plain, skipSpace_writeMember]
          simp only [List.cons_append, List.append_assoc, readValue, hskip]
          obtain ⟨cs, hcs⟩ := exists_writeMember_cons style (level + 1) m
          rw [hcs, List.cons_append] at hread ⊢
          split
          · next heq => exact absurd (List.cons.inj heq).1 (by decide)
          · simp only [hread, ok_bind, pure_eq_ok, Members.ofPairs_eq_self text unique]

/-- The text of a value that can be read is read back as the value. -/
theorem readsBack_of_isReadable {v : Value} (h : v.IsReadable) : ReadsBack style v := by
  induction h with
  | scalar fits => exact readsBack_scalar style fits
  | array _ ih => exact readsBack_array plain ih
  | object text unique _ ih => exact readsBack_object plain text unique ih

/-- A text of a value and white space behind it denote the value. -/
theorem read_write_append {v : Value} (h : v.IsReadable) {spaces : List Char}
    (hspaces : ∀ c ∈ spaces, isSpace c = true) :
    read (write style v ++ String.ofList spaces) = .ok v := by
  obtain ⟨c, cs, hcs, hspace, -, -, hmark⟩ := exists_head_writeValue style 0 v
  have hread := readsBack_of_isReadable plain h 0 (2 * (writeValue style 0 v ++ spaces).length + 2) spaces
    (endsNumber_spaces hspaces) (by rw [List.length_append]; omega)
  have hskip : skipSpace (writeValue style 0 v ++ spaces) = writeValue style 0 v ++ spaces := by
    rw [hcs]
    exact skipSpace_of_not_isSpace hspace _
  have hend : skipSpace spaces = [] := List.dropWhile_eq_nil_iff.mpr hspaces
  have hall : readAll (writeValue style 0 v ++ spaces) = .ok v := by
    unfold readAll
    split
    · next heq =>
        rw [hcs] at heq
        exact absurd (List.cons.inj heq).1 hmark
    · simp only [hskip, hread, ok_bind, hend, pure_eq_ok]
  rw [read, write, String.toList_append, String.toList_ofList, String.toList_ofList, hall]
  rfl

/-- Reading undoes writing. -/
theorem read_write {v : Value} (h : v.IsReadable) : read (write style v) = .ok v := by
  have hread := read_write_append plain h (List.forall_mem_nil _)
  rwa [String.ofList_nil, String.append_empty] at hread

end Plain

end SchemaForge.Json
