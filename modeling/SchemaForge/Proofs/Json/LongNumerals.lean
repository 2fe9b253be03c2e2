import SchemaForge.Proofs.Json.Reading

/-!
Texts that are refused although they are well formed: those with an integer of too many digits. Each reading
step stays within what is left of the text, so a step that refuses an integer has met a row of so many digits
there. A row that is a text of its own is refused.
-/

namespace SchemaForge.Json

/-- Characters among which there is a row of `n` digits, which are more than an integer may have. -/
def HasLongRow (cs : List Char) (n : Nat) : Prop :=
  ∃ ds, ds <:+: cs ∧ (∀ c ∈ ds, c.isDigit = true) ∧ ds.length = n ∧ Numeric.mostDigits < n

theorem HasLongRow.mono {cs ds : List Char} {n : Nat} (h : HasLongRow ds n) (hsuffix : ds <:+ cs) :
    HasLongRow cs n := by
  obtain ⟨row, hrow, hdigits⟩ := h
  exact ⟨row, hrow.trans hsuffix.isInfix, hdigits⟩

/-- A reading step that goes on with an end of the text, and refuses an integer only for a row of digits in
the text. -/
structure StaysWithin {α : Type} (cs : List Char) (step : Step (α × List Char)) : Prop where
  suffix : ∀ a rest, step = .ok (a, rest) → rest <:+ cs
  longRow : ∀ n, step = .error (.numeralTooLong n) → HasLongRow cs n

section Rules

variable {α β : Type} {cs ds : List Char}

theorem staysWithin_ok {rest : List Char} (h : rest <:+ cs) (a : α) :
    StaysWithin cs (.ok (a, rest)) := by
  refine ⟨fun b tail heq => ?_, nofun⟩
  cases heq
  exact h

theorem staysWithin_malformed (cs : List Char) (defect : Defect) (rest : List Char) :
    StaysWithin cs (.error (.malformed defect rest) : Step (α × List Char)) :=
  ⟨nofun, nofun⟩

theorem StaysWithin.mono {step : Step (α × List Char)} (h : StaysWithin ds step) (hsuffix : ds <:+ cs) :
    StaysWithin cs step :=
  ⟨fun a rest heq => (h.suffix a rest heq).trans hsuffix, fun n heq => (h.longRow n heq).mono hsuffix⟩

/-- A step that goes on where another one has ended. -/
theorem StaysWithin.bind {step : Step (α × List Char)} {next : α × List Char → Step (β × List Char)}
    (h : StaysWithin cs step) (hnext : ∀ a rest, StaysWithin rest (next (a, rest))) :
    StaysWithin cs (step >>= next) := by
  cases step with
  | error stop =>
      refine ⟨nofun, fun n heq => ?_⟩
      cases heq
      exact h.longRow n rfl
  | ok read => exact (hnext read.1 read.2).mono (h.suffix read.1 read.2 rfl)

/-- A step after which something is made of what was read. -/
theorem StaysWithin.map {step : Step (α × List Char)} (h : StaysWithin cs step) (f : α → β) :
    StaysWithin cs (step >>= fun read => .ok (f read.1, read.2)) :=
  h.bind fun a rest => staysWithin_ok (List.suffix_refl rest) (f a)

end Rules

theorem skipSpace_suffix (cs : List Char) : skipSpace cs <:+ cs := List.dropWhile_suffix _

/-! ### Texts -/

theorem staysWithin_readDigits (letter cs : List Char) : StaysWithin cs (readDigits letter cs) := by
  unfold readDigits
  split
  · next a b c d x rest =>
      have htail : x :: rest <:+ a :: b :: c :: d :: x :: rest := ⟨[a, b, c, d], rfl⟩
      split
      · exact staysWithin_malformed _ _ _
      · split
        · split
          · next a' b' c' d' y tail heq =>
              split
              · exact staysWithin_malformed _ _ _
              · split
                · refine staysWithin_ok (List.IsSuffix.trans ?_ htail) _
                  exact heq ▸ ⟨['\\', 'u', a', b', c', d'], rfl⟩
                · exact staysWithin_ok htail _
          · exact staysWithin_ok htail _
        · exact staysWithin_ok htail _
  · exact staysWithin_malformed _ _ _

theorem staysWithin_readEscape (whole escape cs : List Char) :
    StaysWithin cs (readEscape whole escape cs) := by
  unfold readEscape
  split
  · exact staysWithin_malformed _ _ _
  · exact (staysWithin_readDigits _ _).mono (List.suffix_cons _ _)
  · split
    · exact staysWithin_malformed _ _ _
    · exact staysWithin_ok (List.suffix_cons _ _) _

theorem staysWithin_readText (whole : List Char) (fuel : Nat) :
    ∀ cs, StaysWithin cs (readText whole fuel cs) := by
  induction fuel with
  | zero => exact fun cs => staysWithin_malformed _ _ _
  | succ fuel ih =>
      intro cs
      cases cs with
      | nil => exact staysWithin_malformed _ _ _
      | cons c cs =>
          rw [readText]
          split
          · exact staysWithin_ok (List.suffix_cons _ _) _
          · split
            · exact staysWithin_malformed _ _ _
            · -- The rest is read in the same way, whatever the first character stands for.
              have hrest : ∀ d rest, StaysWithin rest
                  (readText whole fuel rest >>= fun read => .ok (d :: read.1, read.2)) :=
                fun d rest => (ih rest).map (d :: ·)
              refine StaysWithin.mono ?_ (List.suffix_cons c cs)
              dsimp only
              split
              · exact (staysWithin_readEscape _ _ _).bind hrest
              · exact hrest c cs

/-! ### Numbers -/

theorem readWhole_eq_append {cs whole rest : List Char} (h : readWhole cs = some (whole, rest)) :
    cs = whole ++ rest := by
  unfold readWhole at h
  split at h
  · cases h
    rfl
  · split at h
    · cases h
    · have hspan : spanDigits cs = (whole, rest) := Option.some.inj h
      rw [← List.takeWhile_append_dropWhile (p := Char.isDigit) (l := cs)]
      exact congrArg (fun read : List Char × List Char => read.1 ++ read.2) hspan

theorem suffix_of_spanDigits {cs ds rest : List Char} (h : spanDigits cs = (ds, rest)) : rest <:+ cs := by
  cases h
  exact List.dropWhile_suffix _

theorem readFraction_suffix {cs ds rest : List Char} (h : readFraction cs = some (ds, rest)) :
    rest <:+ cs := by
  unfold readFraction at h
  split at h
  · next cs =>
      split at h
      · cases h
      · have hspan : spanDigits cs = (ds, rest) := Option.some.inj h
        exact (suffix_of_spanDigits hspan).trans (List.suffix_cons _ _)
  · cases h

theorem readExponent_suffix {cs rest : List Char} {power : Int} (h : readExponent cs = some (power, rest)) :
    rest <:+ cs := by
  unfold readExponent at h
  split at h
  · next c cs =>
      split at h
      · dsimp only at h
        split at h
        · cases h
        · next ds tail _ hspan =>
            cases h
            refine ((suffix_of_spanDigits hspan).trans ?_).trans (List.suffix_cons c cs)
            -- The digits begin after the sign, if there is one.
            split
            · exact List.suffix_cons _ _
            · exact List.suffix_cons _ _
            · exact List.suffix_refl _
      · cases h
  · cases h

theorem staysWithin_readMagnitude (start cs : List Char) (negative : Bool) :
    StaysWithin cs (readMagnitude start negative cs) := by
  unfold readMagnitude
  split
  · exact staysWithin_malformed _ _ _
  · next whole rest hwhole =>
      have happend := readWhole_eq_append hwhole
      have hrest : rest <:+ cs := ⟨whole, happend.symm⟩
      split
      · split
        · next hlong =>
            refine ⟨nofun, fun n heq => ?_⟩
            cases heq
            exact ⟨whole, ⟨[], rest, happend.symm⟩, (isDigit_of_readWhole hwhole).2, rfl, hlong⟩
        · exact staysWithin_ok hrest _
      · next power tail _ hexponent => exact staysWithin_ok ((readExponent_suffix hexponent).trans hrest) _
      · next _ fraction tail hfraction =>
          have htail := (readFraction_suffix hfraction).trans hrest
          refine staysWithin_ok (List.IsSuffix.trans ?_ htail) _
          cases hexponent : readExponent tail with
          | none => exact List.suffix_refl tail
          | some read => exact readExponent_suffix hexponent

theorem staysWithin_readAtom (cs : List Char) : StaysWithin cs (readAtom cs) := by
  unfold readAtom
  split
  · exact staysWithin_ok (List.drop_suffix _ _) _
  · unfold readNumber
    split
    · exact (staysWithin_readMagnitude _ _ _).mono (List.suffix_cons _ _)
    · exact staysWithin_readMagnitude _ _ _

/-! ### Values -/

theorem suffix_of_skipSpace {cs rest : List Char} {c : Char} (h : skipSpace cs = c :: rest) :
    rest <:+ cs :=
  (List.suffix_cons c rest).trans (h ▸ skipSpace_suffix cs)

theorem staysWithin_readKey (cs : List Char) : StaysWithin cs (readKey cs) := by
  unfold readKey
  split
  · next cs =>
      refine StaysWithin.mono ?_ (List.suffix_cons '"' cs)
      refine (staysWithin_readText _ _ _).bind fun text rest => ?_
      dsimp only
      split
      · next tail hcolon =>
          exact staysWithin_ok ((skipSpace_suffix tail).trans (suffix_of_skipSpace hcolon)) _
      · exact staysWithin_malformed _ _ _
  · exact staysWithin_malformed _ _ _

/-- Whether what is read with some fuel stays within the text. -/
structure ReadsWithin (fuel : Nat) : Prop where
  value : ∀ cs, StaysWithin cs (readValue fuel cs)
  elements : ∀ cs, StaysWithin cs (readElements fuel cs)
  members : ∀ cs, StaysWithin cs (readMembers fuel cs)

namespace ReadsWithin

variable {fuel : Nat} (reads : ReadsWithin fuel) (cs : List Char)

include reads

theorem readValue_succ : StaysWithin cs (readValue (fuel + 1) cs) := by
  unfold readValue
  split
  · next cs =>
      refine StaysWithin.mono ?_ (List.suffix_cons '"' cs)
      exact (staysWithin_readText _ _ _).map fun text => Value.str (String.ofList text)
  · next cs =>
      refine StaysWithin.mono ?_ (List.suffix_cons '[' cs)
      split
      · next hclose => exact staysWithin_ok (suffix_of_skipSpace hclose) _
      · refine StaysWithin.mono ?_ (skipSpace_suffix cs)
        exact (reads.elements _).map Value.array
  · next cs =>
      refine StaysWithin.mono ?_ (List.suffix_cons '{' cs)
      split
      · next hclose => exact staysWithin_ok (suffix_of_skipSpace hclose) _
      · refine StaysWithin.mono ?_ (skipSpace_suffix cs)
        exact (reads.members _).map fun ps => Value.object (Members.ofPairs ps)
  · exact staysWithin_readAtom cs

theorem readElements_succ : StaysWithin cs (readElements (fuel + 1) cs) := by
  unfold readElements
  refine (reads.value cs).bind fun x rest => ?_
  dsimp only
  split
  · next hclose => exact staysWithin_ok (suffix_of_skipSpace hclose) _
  · next tail hcomma =>
      refine StaysWithin.mono ?_ ((skipSpace_suffix tail).trans (suffix_of_skipSpace hcomma))
      exact (reads.elements _).map (x :: ·)
  · exact staysWithin_malformed _ _ _

theorem readMembers_succ : StaysWithin cs (readMembers (fuel + 1) cs) := by
  unfold readMembers
  refine (staysWithin_readKey cs).bind fun k rest => (reads.value rest).bind fun v rest => ?_
  dsimp only
  split
  · next hclose => exact staysWithin_ok (suffix_of_skipSpace hclose) _
  · next tail hcomma =>
      refine StaysWithin.mono ?_ ((skipSpace_suffix tail).trans (suffix_of_skipSpace hcomma))
      exact (reads.members _).map ((k, v) :: ·)
  · exact staysWithin_malformed _ _ _

end ReadsWithin

/-- The fuel goes down from a value to its parts and from a part to the next. -/
theorem readsWithin (fuel : Nat) : ReadsWithin fuel := by
  induction fuel with
  | zero =>
      refine ⟨fun cs => ?_, fun cs => ?_, fun cs => ?_⟩
      · rw [readValue]
        exact staysWithin_malformed _ _ _
      · rw [readElements]
        exact staysWithin_malformed _ _ _
      · rw [readMembers]
        exact staysWithin_malformed _ _ _
  | succ fuel ih => exact ⟨ih.readValue_succ, ih.readElements_succ, ih.readMembers_succ⟩

/-! ### Whole texts -/

theorem hasLongRow_of_readAll {cs : List Char} {n : Nat} (h : readAll cs = .error (.numeralTooLong n)) :
    HasLongRow cs n := by
  unfold readAll at h
  split at h
  · cases h
  · have hvalue := ((readsWithin (2 * cs.length + 2)).value (skipSpace cs)).mono (skipSpace_suffix cs)
    cases heq : readValue (2 * cs.length + 2) (skipSpace cs) with
    | error stop =>
        rw [heq] at h hvalue
        cases h
        exact hvalue.longRow n rfl
    | ok read =>
        rw [heq, ok_bind] at h
        dsimp only at h
        split at h
        · cases h
        · cases h

/-- A text that is refused for an integer of `n` digits has a row of so many digits. -/
theorem hasLongRow_of_read {text : String} {n : Nat} (h : read text = .error (.numeralTooLong n)) :
    HasLongRow text.toList n := by
  unfold read at h
  cases hall : readAll text.toList with
  | ok v =>
      rw [hall] at h
      cases h
  | error stop =>
      rw [hall] at h
      cases stop with
      | malformed defect rest => cases h
      | numeralTooLong m =>
          cases h
          exact hasLongRow_of_readAll hall

theorem readMagnitude_tooLong {whole : List Char} (h : WholePart whole)
    (hlong : Numeric.mostDigits < whole.length) (start : List Char) (negative : Bool) :
    readMagnitude start negative whole = .error (.numeralTooLong whole.length) := by
  have hwhole : readWhole whole = some (whole, []) := by
    simpa using readWhole_append h endsNumber_nil.endsDigits
  simp only [readMagnitude, hwhole, readFraction_of_endsNumber endsNumber_nil,
    readExponent_of_endsNumber endsNumber_nil]
  rw [if_pos hlong]

/-- A text that begins with a word or a number is refused for what its word or number is refused for. -/
theorem readAll_of_readAtom {c : Char} {cs : List Char} {stop : Stop} (hopens : OpensAtom c)
    (h : readAtom (c :: cs) = .error stop) : readAll (c :: cs) = .error stop := by
  obtain ⟨hspace, -, -, hmark⟩ := hopens.1
  unfold readAll
  split
  · next heq => exact absurd (List.cons.inj heq).1 hmark
  · rw [skipSpace_of_not_isSpace hspace, readValue_of_opensAtom hopens, h]
    rfl

/-- A row of too many digits is refused. -/
theorem read_wholePart {ds : List Char} (h : WholePart ds) (hlong : Numeric.mostDigits < ds.length) :
    read (String.ofList ds) = .error (.numeralTooLong ds.length) := by
  obtain ⟨c, cs, rfl, hc⟩ := h.head
  have hatom : readAtom (c :: cs) = .error (.numeralTooLong (c :: cs).length) := by
    rw [readAtom_of_startsNumber ⟨c, cs, hc, .inl rfl⟩, readNumber_of_isDigit hc]
    exact readMagnitude_tooLong h hlong _ false
  rw [read, String.toList_ofList, readAll_of_readAtom (opensAtom_of_isDigit hc) hatom]
  rfl

end SchemaForge.Json
