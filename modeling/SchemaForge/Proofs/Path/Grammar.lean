import Mathlib.Data.List.TakeWhile
import Mathlib.Data.Nat.Digits.Defs
import SchemaForge.Path.Written
import SchemaForge.Proofs.Answers
import SchemaForge.Proofs.Lists
import SchemaForge.Proofs.Value.Readable

/-!
The grammar of written paths. A path is a row of pieces, keys and indices, each followed by at most one full stop. The
reader accepts these texts and no others, and answers with the pieces in their order; whatever is no written path it
refuses for one of five causes.
-/

namespace SchemaForge

/-! ### White space around a text -/

namespace Text

/-- A text that neither starts nor ends with white space. -/
structure IsTrimmed (cs : List Char) : Prop where
  first : ∀ c ∈ cs.head?, isBlank c = false
  last : ∀ c ∈ cs.getLast?, isBlank c = false

/-- What is left of a text without the white space at its two ends. -/
structure Trims (cs inner : List Char) : Prop where
  trimmed : IsTrimmed inner
  around : ∃ lead trail, cs = lead ++ inner ++ trail ∧ (∀ c ∈ lead, isBlank c = true) ∧
    ∀ c ∈ trail, isBlank c = true

theorem trims_trim (cs : List Char) : Trims cs (trim cs) := by
  obtain ⟨trail, htrail, hcut⟩ : ∃ trail, (∀ c ∈ trail, isBlank c = true) ∧
      cs.dropWhile isBlank = trim cs ++ trail := by
    refine ⟨((cs.dropWhile isBlank).reverse.takeWhile isBlank).reverse, fun c hc => ?_, ?_⟩
    · exact List.mem_takeWhile_imp (List.mem_reverse.mp hc)
    · rw [trim, ← List.reverse_append, List.takeWhile_append_dropWhile, List.reverse_reverse]
  refine ⟨⟨fun c hc => ?_, fun c hc => ?_⟩, cs.takeWhile isBlank, trail, ?_, fun c => List.mem_takeWhile_imp,
    htrail⟩
  · refine ends_dropWhile isBlank cs c ?_
    rw [hcut, List.head?_append, Option.mem_def.mp hc]
    rfl
  · rw [trim, List.getLast?_reverse] at hc
    exact ends_dropWhile isBlank _ c hc
  · rw [List.append_assoc, ← hcut, List.takeWhile_append_dropWhile]

/-- Nothing else is left of the text. -/
theorem Trims.trim_eq {cs inner : List Char} (h : Trims cs inner) : trim cs = inner := by
  obtain ⟨trimmed, lead, trail, rfl, hlead, htrail⟩ := h
  by_cases hinner : inner = []
  · have hall : ∀ c ∈ lead ++ inner ++ trail, isBlank c = true := by
      intro c hc
      rw [hinner, List.append_nil] at hc
      exact (List.mem_append.mp hc).elim (hlead c) (htrail c)
    rw [trim, List.dropWhile_eq_nil_iff.mpr hall, hinner]
    rfl
  · have hfirst : ∀ c ∈ (inner ++ trail).head?, isBlank c = false := by
      rw [List.head?_append_of_ne_nil _ hinner]
      exact trimmed.first
    have hlast : ∀ c ∈ inner.reverse.head?, isBlank c = false := by
      rw [List.head?_reverse]
      exact trimmed.last
    have hback : ∀ c ∈ trail.reverse, isBlank c = true := fun c hc => htrail c (List.mem_reverse.mp hc)
    rw [trim, List.append_assoc, dropWhile_append_of_ends hlead hfirst, List.reverse_append,
      dropWhile_append_of_ends hback hlast, List.reverse_reverse]

theorem IsTrimmed.trim_eq {cs : List Char} (h : IsTrimmed cs) : trim cs = cs :=
  Trims.trim_eq ⟨h, [], [], by simp, by simp, by simp⟩

end Text

namespace Path

/-! ### The grammar -/

/-- A piece of a written path in front of what follows it, with the segment that it denotes. A key goes on as far as
it can; an index is a row of decimal digits between brackets, no longer than an integer may be. -/
inductive Piece : List Char → List Char → Value → Prop where
  | key {cs after : List Char} (nonempty : cs ≠ []) (plain : ∀ c ∈ cs, c ≠ '.' ∧ c ≠ '[')
      (maximal : ∀ c ∈ after.head?, c = '.' ∨ c = '[') : Piece cs after (.str (String.ofList cs))
  | index {ds : List Char} {vs : List Nat} (nonempty : ds ≠ [])
      (values : ds.map Text.digitValue? = vs.map some) (length : ds.length ≤ Numeric.mostDigits)
      (after : List Char) : Piece ('[' :: (ds ++ [']'])) after (.int (Nat.ofDigits 10 vs.reverse : Nat))

/-- A written path with the segments that it denotes: pieces, each followed by at most one full stop. -/
inductive Written : List Char → Path → Prop where
  | nil : Written [] []
  | cons {cs after rest : List Char} {v : Value} {p : Path} (piece : Piece cs after v)
      (stop : after = rest ∨ after = '.' :: rest) (later : Written rest p) : Written (cs ++ after) (v :: p)

/-- The causes for which a text is refused as a path. -/
inductive IsMalformed : Fault → Prop where
  | unclosedIndex (text : String) : IsMalformed (.unclosedIndex text)
  | nonIntegerIndex (piece : String) : IsMalformed (.nonIntegerIndex piece)
  | emptyKey (text : String) : IsMalformed (.emptyKey text)
  | invalidNumeral (digits : String) : IsMalformed (.invalidNumeral digits)
  | numeralTooLong (count : Nat) : IsMalformed (.numeralTooLong count)

/-! ### Digits -/

theorem decimalValue?_concat (ds : List Char) (d : Char) :
    Text.decimalValue? (ds ++ [d]) =
      (Text.decimalValue? ds).bind fun n => (Text.digitValue? d).map (10 * n + ·) := by
  simp [Text.decimalValue?, List.foldlM_append]

/-- The number that decimal digits denote is the one with their values as its decimal digits. -/
theorem decimalValue?_of_values {ds : List Char} {vs : List Nat}
    (h : ds.map Text.digitValue? = vs.map some) : Text.decimalValue? ds = some (Nat.ofDigits 10 vs.reverse) := by
  induction ds using List.reverseRecOn generalizing vs with
  | nil =>
      obtain rfl : vs = [] := by simpa using h.symm
      rfl
  | append_singleton ds d ih =>
      obtain rfl | ⟨us, v, rfl⟩ := vs.eq_nil_or_concat
      · simp at h
      · simp only [List.concat_eq_append, List.map_append, List.map_cons, List.map_nil] at h
        obtain ⟨hds, hd⟩ := List.append_inj' h rfl
        rw [decimalValue?_concat, ih hds, (List.cons.inj hd).1, List.concat_eq_append, List.reverse_concat,
          Nat.ofDigits_cons]
        simp [Nat.add_comm]

theorem exists_values {ds : List Char} {n : Nat} (h : Text.decimalValue? ds = some n) :
    ∃ vs : List Nat, ds.map Text.digitValue? = vs.map some := by
  induction ds using List.reverseRecOn generalizing n with
  | nil => exact ⟨[], rfl⟩
  | append_singleton ds d ih =>
      rw [decimalValue?_concat, Option.bind_eq_some_iff] at h
      obtain ⟨m, hm, hn⟩ := h
      obtain ⟨v, hv, -⟩ := Option.map_eq_some_iff.mp hn
      obtain ⟨vs, hvs⟩ := ih hm
      exact ⟨vs ++ [v], by rw [List.map_append, List.map_append, hvs, List.map_singleton, hv]; rfl⟩

/-! ### Indices -/

theorem isSome_of_values {ds : List Char} {vs : List Nat} (h : ds.map Text.digitValue? = vs.map some) :
    ∀ d ∈ ds, (Text.digitValue? d).isSome = true := by
  intro d hd
  have hmem : Text.digitValue? d ∈ vs.map some := h ▸ List.mem_map_of_mem hd
  obtain ⟨v, -, hv⟩ := List.mem_map.mp hmem
  rw [← hv, Option.isSome_some]

/-- Decimal digits between brackets are read if there are not too many of them. -/
theorem readIndex_of_values {ds : List Char} {vs : List Nat} (h : ds.map Text.digitValue? = vs.map some) :
    readIndex ds = if Numeric.mostDigits < ds.length then .error (.numeralTooLong ds.length)
      else .ok (.int (Nat.ofDigits 10 vs.reverse : Nat)) := by
  have hall : (ds.takeWhile fun c => (Text.digitValue? c).isSome) = ds :=
    List.takeWhile_eq_self_iff.mpr (isSome_of_values h)
  simp only [readIndex, hall, decimalValue?_of_values h]

/-- If a row of digits is read, all of them are decimal. -/
theorem exists_values_of_readIndex {ds : List Char} {v : Value} (h : readIndex ds = .ok v) :
    ∃ vs : List Nat, ds.map Text.digitValue? = vs.map some := by
  rw [readIndex] at h
  split at h
  · contradiction
  · split at h
    · next hvalue => exact exists_values hvalue
    · contradiction

theorem isMalformed_of_readIndex {ds : List Char} {fault : Fault} (h : readIndex ds = .error fault) :
    IsMalformed fault := by
  rw [readIndex] at h
  split at h
  · cases h
    exact .numeralTooLong _
  · split at h
    · contradiction
    · cases h
      exact .invalidNumeral _

/-! ### One piece -/

section Reading

variable {text : String}

theorem eq_or_eq_cons_skipStop (after : List Char) : after = skipStop after ∨ after = '.' :: skipStop after := by
  rcases after with _ | ⟨c, after⟩
  · exact .inl rfl
  · by_cases hc : c = '.'
    · exact .inr (by rw [hc]; rfl)
    · exact .inl (by rw [skipStop.eq_2 _ (by simpa using hc)])

theorem skipStop_of_ne {cs : List Char} (h : ∀ c ∈ cs.head?, c ≠ '.') : skipStop cs = cs := by
  rcases cs with _ | ⟨c, cs⟩
  · rfl
  · rw [skipStop.eq_2 _ (by simpa using h)]

theorem isKeyChar_iff {c : Char} : isKeyChar c = true ↔ c ≠ '.' ∧ c ≠ '[' := by
  simp [isKeyChar]

theorem isKeyChar_eq_false_iff {c : Char} : isKeyChar c = false ↔ c = '.' ∨ c = '[' := by
  rw [← Bool.not_eq_true, isKeyChar_iff, not_and_or, not_not, not_not]

/-- A text begins with a bracket that is not closed, with one that is, or with none. -/
theorem bracket_cases (cs : List Char) :
    (∃ ds, ']' ∉ ds ∧ cs = '[' :: ds) ∨ (∃ ds after, ']' ∉ ds ∧ cs = '[' :: (ds ++ ']' :: after)) ∨
      ∀ c ∈ cs.head?, c ≠ '[' := by
  rcases cs with _ | ⟨c, cs⟩
  · exact .inr (.inr (by simp))
  · by_cases hc : c = '['
    · subst hc
      by_cases hclosed : ']' ∈ cs
      · obtain ⟨ds, after, rfl, hds⟩ := List.eq_append_cons_of_mem hclosed
        exact .inr (.inl ⟨ds, after, hds, rfl⟩)
      · exact .inl ⟨cs, hclosed, rfl⟩
    · exact .inr (.inr (by simpa using hc))

theorem readPiece_unclosed {ds : List Char} (h : ']' ∉ ds) :
    readPiece text ('[' :: ds) = .error (.unclosedIndex text) := by
  have hall : ds.dropWhile (· ≠ ']') = [] :=
    List.dropWhile_eq_nil_iff.mpr fun c hc => by simpa using fun hbracket : c = ']' => h (hbracket ▸ hc)
  simp only [readPiece, hall]

theorem readPiece_closed {ds : List Char} (h : ']' ∉ ds) (after : List Char) :
    readPiece text ('[' :: (ds ++ ']' :: after)) =
      if ds = [] ∨ ds.all Text.isDigit = false then
        .error (.nonIntegerIndex (String.ofList ('[' :: (ds ++ [']']))))
      else readIndex ds >>= fun v => .ok (v, skipStop after) := by
  have hinside : ∀ c ∈ ds, decide (c ≠ ']') = true :=
    fun c hc => by simpa using fun hbracket : c = ']' => h (hbracket ▸ hc)
  have hends : ∀ c ∈ (']' :: after).head?, decide (c ≠ ']') = false := by simp
  simp only [readPiece, takeWhile_append_of_ends hinside hends, dropWhile_append_of_ends hinside hends]
  congr 1
  simp

/-- What does not begin with a bracket is read as a key. -/
theorem readPiece_of_ne {cs : List Char} (h : ∀ c ∈ cs.head?, c ≠ '[') :
    readPiece text cs =
      if cs.takeWhile isKeyChar = [] then .error (.emptyKey text)
      else .ok (.str (String.ofList (cs.takeWhile isKeyChar)), skipStop (cs.dropWhile isKeyChar)) := by
  rw [readPiece.eq_2 _ _ fun ds hds => h '[' (by rw [hds]; rfl) rfl]
  split
  · next hnil => rw [if_pos hnil]
  · next hne => rw [if_neg hne]

/-- The reader takes a piece of the grammar and the full stop after it. -/
theorem Piece.readPiece {cs after : List Char} {v : Value} (h : Piece cs after v) :
    readPiece text (cs ++ after) = .ok (v, skipStop after) := by
  cases h with
  | key nonempty plain maximal =>
      have hkey : ∀ c ∈ cs, isKeyChar c = true := fun c hc => isKeyChar_iff.mpr (plain c hc)
      have hends : ∀ c ∈ after.head?, isKeyChar c = false := fun c hc => isKeyChar_eq_false_iff.mpr (maximal c hc)
      have hhead : ∀ c ∈ (cs ++ after).head?, c ≠ '[' := by
        intro c hc
        rw [List.head?_append_of_ne_nil _ nonempty] at hc
        exact (plain c (List.mem_of_mem_head? hc)).2
      rw [readPiece_of_ne hhead, takeWhile_append_of_ends hkey hends, dropWhile_append_of_ends hkey hends,
        if_neg nonempty]
  | @index ds vs nonempty values length =>
      have hdecimal := isSome_of_values values
      have hinside : ']' ∉ ds := fun h => absurd (hdecimal _ h) (by decide)
      have hdigits : ds.all Text.isDigit = true :=
        List.all_eq_true.mpr fun d hd => by rw [Text.isDigit, hdecimal d hd, Bool.true_or]
      rw [List.cons_append, List.append_assoc, List.singleton_append, readPiece_closed hinside,
        if_neg (by simp [nonempty, hdigits]), readIndex_of_values values, if_neg (by omega)]
      rfl

/-- What the reader takes is a piece of the grammar, and the full stop after it. -/
theorem exists_piece_of_readPiece {cs rest : List Char} {v : Value} (h : readPiece text cs = .ok (v, rest)) :
    ∃ piece after, cs = piece ++ after ∧ rest = skipStop after ∧ Piece piece after v := by
  obtain ⟨ds, hds, rfl⟩ | ⟨ds, after, hds, rfl⟩ | hne := bracket_cases cs
  · rw [readPiece_unclosed hds] at h
    contradiction
  · rw [readPiece_closed hds] at h
    split at h
    · contradiction
    · next hdigits =>
        obtain ⟨w, hw, hpair⟩ := bind_eq_ok_iff.mp h
        cases hpair
        obtain ⟨hnonempty, -⟩ := not_or.mp hdigits
        obtain ⟨vs, hvs⟩ := exists_values_of_readIndex hw
        rw [readIndex_of_values hvs] at hw
        split at hw
        · contradiction
        · next hlength =>
            cases hw
            exact ⟨'[' :: (ds ++ [']']), after, by simp, rfl, .index hnonempty hvs (by omega) after⟩
  · rw [readPiece_of_ne hne] at h
    split at h
    · contradiction
    · next hkey =>
        cases h
        refine ⟨_, _, (List.takeWhile_append_dropWhile).symm, rfl, .key hkey (fun c hc => ?_) fun c hc => ?_⟩
        · exact isKeyChar_iff.mp (List.mem_takeWhile_imp hc)
        · exact isKeyChar_eq_false_iff.mp (ends_dropWhile _ _ c hc)

/-- What the reader refuses is no piece, for one of the five causes. -/
theorem isMalformed_of_readPiece {cs : List Char} {fault : Fault} (h : readPiece text cs = .error fault) :
    IsMalformed fault := by
  obtain ⟨ds, hds, rfl⟩ | ⟨ds, after, hds, rfl⟩ | hne := bracket_cases cs
  · rw [readPiece_unclosed hds] at h
    cases h
    exact .unclosedIndex text
  · rw [readPiece_closed hds] at h
    split at h
    · cases h
      exact .nonIntegerIndex _
    · rcases bind_eq_error_iff.mp h with hindex | ⟨v, -, hpair⟩
      · exact isMalformed_of_readIndex hindex
      · contradiction
  · rw [readPiece_of_ne hne] at h
    split at h
    · cases h
      exact .emptyKey text
    · contradiction

/-! ### All pieces -/

theorem Piece.ne_nil {cs after : List Char} {v : Value} (h : Piece cs after v) : cs ≠ [] := by
  cases h with
  | key nonempty _ _ => exact nonempty
  | index _ _ _ _ => simp

/-- No piece begins with a full stop. -/
theorem Piece.head_ne {cs after : List Char} {v : Value} (h : Piece cs after v) : ∀ c ∈ cs.head?, c ≠ '.' := by
  intro c hc
  cases h with
  | key _ plain _ => exact (plain c (List.mem_of_mem_head? hc)).1
  | index _ _ _ _ =>
      obtain rfl : '[' = c := by simpa using hc
      decide

/-- No path begins with a full stop, so that there is no doubt about the one after a piece. -/
theorem Written.head_ne {cs : List Char} {p : Path} (h : Written cs p) : ∀ c ∈ cs.head?, c ≠ '.' := by
  cases h with
  | nil => simp
  | @cons cs after _ _ _ piece _ _ =>
      intro c hc
      rw [List.head?_append_of_ne_nil _ piece.ne_nil] at hc
      exact piece.head_ne c hc

theorem length_skipStop_le (cs : List Char) : (skipStop cs).length ≤ cs.length := by
  rcases eq_or_eq_cons_skipStop cs with h | h
  · rw [← h]
  · have hlength := congrArg List.length h
    rw [List.length_cons] at hlength
    omega

theorem Written.skipStop_eq {after rest : List Char} {p : Path} (later : Written rest p)
    (stop : after = rest ∨ after = '.' :: rest) : skipStop after = rest := by
  rcases stop with rfl | rfl
  · exact skipStop_of_ne later.head_ne
  · rfl

theorem readPieces_nil (fuel : Nat) : readPieces text fuel [] = .ok [] := by
  cases fuel <;> rfl

theorem readPieces_succ {cs : List Char} (h : cs ≠ []) (fuel : Nat) :
    readPieces text (fuel + 1) cs =
      readPiece text cs >>= fun r => readPieces text fuel r.2 >>= fun p => .ok (r.1 :: p) := by
  obtain ⟨c, cs, rfl⟩ := List.exists_cons_of_ne_nil h
  rfl

/-- The reader accepts every path of the grammar, if it may read as many pieces as there are characters. -/
theorem Written.readPieces {cs : List Char} {p : Path} (h : Written cs p) :
    ∀ {fuel : Nat}, cs.length ≤ fuel → readPieces text fuel cs = .ok p := by
  induction h with
  | nil => exact fun {fuel} _ => readPieces_nil fuel
  | @cons cs after rest v p piece stop later ih =>
      intro fuel hfuel
      have hpos : 0 < cs.length := List.length_pos_of_ne_nil piece.ne_nil
      have hrest : rest.length ≤ after.length := later.skipStop_eq stop ▸ length_skipStop_le after
      rw [List.length_append] at hfuel
      obtain ⟨fuel, rfl⟩ := Nat.exists_eq_add_of_lt (show 0 < fuel by omega)
      rw [Nat.zero_add, readPieces_succ (List.append_ne_nil_of_left_ne_nil piece.ne_nil _), piece.readPiece, ok_bind,
        later.skipStop_eq stop, ih (by omega), ok_bind]

/-- What the reader accepts is a path of the grammar. -/
theorem written_of_readPieces {fuel : Nat} :
    ∀ {cs : List Char} {p : Path}, cs.length ≤ fuel → readPieces text fuel cs = .ok p → Written cs p := by
  induction fuel with
  | zero =>
      intro cs p hfuel h
      obtain rfl : cs = [] := List.eq_nil_of_length_eq_zero (by omega)
      cases h
      exact .nil
  | succ fuel ih =>
      intro cs p hfuel h
      by_cases hcs : cs = []
      · rw [hcs, readPieces_nil] at h
        cases h
        exact hcs ▸ .nil
      · rw [readPieces_succ hcs] at h
        obtain ⟨⟨v, rest⟩, hpiece, h⟩ := bind_eq_ok_iff.mp h
        obtain ⟨q, hq, hp⟩ := bind_eq_ok_iff.mp h
        cases hp
        obtain ⟨piece, after, rfl, rfl, hgrammar⟩ := exists_piece_of_readPiece hpiece
        -- A piece is not empty, so that fuel for as many pieces as there are characters lasts.
        have hpos : 0 < piece.length := List.length_pos_of_ne_nil hgrammar.ne_nil
        have hrest := length_skipStop_le after
        rw [List.length_append] at hfuel
        exact .cons hgrammar (eq_or_eq_cons_skipStop after) (ih (by omega) hq)

theorem isMalformed_of_readPieces {fuel : Nat} :
    ∀ {cs : List Char} {fault : Fault}, readPieces text fuel cs = .error fault → IsMalformed fault := by
  induction fuel with
  | zero =>
      intro cs fault h
      cases h
  | succ fuel ih =>
      intro cs fault h
      by_cases hcs : cs = []
      · rw [hcs, readPieces_nil] at h
        cases h
      · rw [readPieces_succ hcs] at h
        rcases bind_eq_error_iff.mp h with hpiece | ⟨r, -, h⟩
        · exact isMalformed_of_readPiece hpiece
        · rcases bind_eq_error_iff.mp h with hlater | ⟨q, -, hpath⟩
          · exact ih hlater
          · contradiction

end Reading

/-- The texts that are read as paths are the written paths, with white space around them or not. -/
theorem parse_eq_ok_iff {text : String} {p : Path} : parse text = .ok p ↔ Written (Text.trim text.toList) p :=
  ⟨written_of_readPieces (Nat.le_refl _), fun h => h.readPieces (Nat.le_refl _)⟩

/-- The index that a row of decimal digits denotes has no more digits than the row. -/
theorem length_digits_ofValues {ds : List Char} {vs : List Nat} (hne : ds ≠ [])
    (h : ds.map Text.digitValue? = vs.map some) :
    (Numeric.digits (Nat.ofDigits 10 vs.reverse)).length ≤ ds.length := by
  have hlength : vs.reverse.length = ds.length := by simpa using (congrArg List.length h).symm
  have hsmall : ∀ v ∈ vs.reverse, v < 10 := by
    intro v hv
    have hmem : some v ∈ ds.map Text.digitValue? := h ▸ List.mem_map_of_mem (List.mem_reverse.mp hv)
    obtain ⟨d, -, hd⟩ := List.mem_map.mp hmem
    exact Text.digitValue?_lt hd
  have hlt := Nat.ofDigits_lt_base_pow_length (by omega) hsmall
  rw [hlength] at hlt
  exact (Nat.length_toDigits_le_iff (by omega) (List.length_pos_iff.mpr hne)).mpr hlt

/-- The segments of a written path are texts and integers that can be read. -/
theorem Written.isReadable {cs : List Char} {p : Path} (h : Written cs p) : ∀ s ∈ p, s.IsReadable := by
  induction h with
  | nil => simp
  | cons piece _ _ ih =>
      refine List.forall_mem_cons.mpr ⟨?_, ih⟩
      cases piece with
      | key => exact .scalar trivial
      | index nonempty values length =>
          exact .scalar (Scalar.isReadable_int_iff.mpr ((length_digits_ofValues nonempty values).trans length))

theorem isReadable_of_parse {text : String} {p : Path} (h : parse text = .ok p) : (Value.array p).IsReadable :=
  .array (parse_eq_ok_iff.mp h).isReadable

/-- A text is read as a path if and only if what is left of it without the white space around it is a written path,
and then as the pieces in their order. Every other text is refused, for one of the five causes. -/
theorem parse_grammar (text : String) :
    ∃ cs, Text.Trims text.toList cs ∧ (∀ p, parse text = .ok p ↔ Written cs p) ∧
      ((∀ p, ¬ Written cs p) → ∃ fault, parse text = .error fault ∧ IsMalformed fault) := by
  refine ⟨_, Text.trims_trim _, fun p => parse_eq_ok_iff, fun hnone => ?_⟩
  cases hparse : parse text with
  | error fault => exact ⟨fault, rfl, isMalformed_of_readPieces hparse⟩
  | ok p => exact absurd (parse_eq_ok_iff.mp hparse) (hnone p)

/-- A key may follow an index at once, and a full stop may be the last; alone it is no path. -/
theorem parse_grammar_stops :
    parse " e[10]b. " = .ok [.str "e", .int 10, .str "b"] ∧
      ∃ fault, parse "." = .error fault ∧ IsMalformed fault := by
  constructor
  · obtain ⟨cs, htrims, hread, -⟩ := parse_grammar " e[10]b. "
    obtain rfl : ['e', '[', '1', '0', ']', 'b', '.'] = cs := htrims.trim_eq
    have last : Written (['b'] ++ ['.']) [.str "b"] := .cons (.key (by simp) (by simp) (by simp)) (.inr rfl) .nil
    have index : Written (['[', '1', '0', ']'] ++ ['b', '.']) [.int 10, .str "b"] :=
      .cons (@Piece.index ['1', '0'] [1, 0] (by simp) (by decide) (by decide) _) (.inl rfl) last
    have whole : Written (['e'] ++ ['[', '1', '0', ']', 'b', '.']) [.str "e", .int 10, .str "b"] :=
      .cons (.key (by simp) (by simp) (by simp)) (.inl rfl) index
    exact (hread _).mpr whole
  · obtain ⟨cs, htrims, -, hrefuse⟩ := parse_grammar "."
    obtain rfl : ['.'] = cs := htrims.trim_eq
    exact hrefuse fun p h => h.head_ne '.' rfl rfl

end Path

end SchemaForge
