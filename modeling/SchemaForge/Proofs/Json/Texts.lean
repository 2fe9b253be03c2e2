import SchemaForge.Json.Printer
import SchemaForge.Json.Reader

/-!
A written text reads back as the text. An escape is read to its end and stands for the character that it
was written for, and a character that is not escaped stands for itself. In a text whose escapes pair the halves
of characters, no escape is read as the character that replaces half a pair.
-/

namespace SchemaForge.Json

/-! ### Escapes -/

/-- The forms of an escaped character: an escape of one letter, one of four digits, or the character. -/
theorem escapeChar_cases (c : Char) :
    (∃ letter, letter ≠ 'u' ∧ escapedChar? letter = some c ∧ escapeChar c = ['\\', letter]) ∨
      (c.toNat < 0x20 ∧ escapeChar c = '\\' :: 'u' :: Text.hex 4 c.toNat) ∨
      (c ≠ '"' ∧ c ≠ '\\' ∧ ¬c.toNat < 0x20 ∧ escapeChar c = [c]) := by
  have hletter : ∀ {d : Char} {letter : Char}, c = d → letter ≠ 'u' → escapedChar? letter = some d →
      ∃ l, l ≠ 'u' ∧ escapedChar? l = some c ∧ ['\\', letter] = ['\\', l] := by
    rintro d letter rfl hu hescaped
    exact ⟨letter, hu, hescaped, rfl⟩
  unfold escapeChar
  split
  · next h => exact .inl (hletter h (by decide) rfl)
  split
  · next h => exact .inl (hletter h (by decide) rfl)
  split
  · next h => exact .inl (hletter h (by decide) rfl)
  split
  · next h => exact .inl (hletter h (by decide) rfl)
  split
  · next h => exact .inl (hletter h (by decide) rfl)
  split
  · next h => exact .inl (hletter h (by decide) rfl)
  split
  · next h => exact .inl (hletter h (by decide) rfl)
  split
  · next h => exact .inr (.inl ⟨h, rfl⟩)
  · next hquote hbackslash _ _ _ _ _ hcontrol =>
      exact .inr (.inr ⟨hquote, hbackslash, hcontrol, rfl⟩)

theorem escapeChar_ne_nil (c : Char) : escapeChar c ≠ [] := by
  rcases escapeChar_cases c with ⟨_, _, _, h⟩ | ⟨_, h⟩ | ⟨_, _, _, h⟩ <;>
    exact h ▸ List.cons_ne_nil _ _

/-- The four digits of a control character denote it. -/
theorem exists_hex_of_lt {n : Nat} (hn : n < 0x20) :
    ∃ a b c d, Text.hex 4 n = [a, b, c, d] ∧ codeUnit? a b c d = some n := by
  have hall : ∀ n < 0x20,
      Text.hex 4 n = ['0', '0', (Text.hex 4 n).getD 2 '0', (Text.hex 4 n).getD 3 '0'] ∧
        codeUnit? '0' '0' ((Text.hex 4 n).getD 2 '0') ((Text.hex 4 n).getD 3 '0') = some n := by
    decide
  exact ⟨_, _, _, _, hall n hn⟩

theorem isHighHalf_of_lt {n : Nat} (hn : n < 0x20) : isHighHalf n = false := by
  rw [isHighHalf, decide_eq_false (by omega), Bool.false_and]

theorem unitChar_toNat {c : Char} (h : c.toNat < 0x20) : unitChar c.toNat = c := by
  have hlow : isLowHalf c.toNat = false := by
    rw [isLowHalf, decide_eq_false (by omega), Bool.false_and]
  rw [unitChar, isHighHalf_of_lt h, hlow]
  exact Char.ofNat_toNat c

/-- A control character is read from its digits. Like every escape of digits it needs a character after
it. -/
theorem readEscape_hex {c : Char} (h : c.toNat < 0x20) (whole escape : List Char) (x : Char)
    (rest : List Char) :
    readEscape whole escape ('u' :: (Text.hex 4 c.toNat ++ x :: rest)) = .ok (c, x :: rest) := by
  obtain ⟨a, b, d, e, hhex, hunit⟩ := exists_hex_of_lt h
  simp only [hhex, List.cons_append, List.nil_append, readEscape, readDigits, hunit,
    isHighHalf_of_lt h, Bool.false_eq_true, if_false, unitChar_toNat h]

theorem readEscape_letter {letter c : Char} (hu : letter ≠ 'u') (h : escapedChar? letter = some c)
    (whole escape rest : List Char) :
    readEscape whole escape (letter :: rest) = .ok (c, rest) := by
  rw [readEscape, h]
  exact hu

/-! ### Halves of a pair -/

/-- The escapes of digits in a text stand for characters: each on its own, or two that are the halves of one. -/
inductive PairsHalves : List Char → Prop where
  | nil : PairsHalves []
  | plain {c : Char} {cs : List Char} (isPlain : c ≠ '\\') (rest : PairsHalves cs) : PairsHalves (c :: cs)
  | letter {c : Char} {cs : List Char} (isLetter : c ≠ 'u') (rest : PairsHalves cs) :
      PairsHalves ('\\' :: c :: cs)
  | unit {a b c d : Char} {n : Nat} {cs : List Char} (unit : codeUnit? a b c d = some n)
      (notHigh : isHighHalf n = false) (notLow : isLowHalf n = false) (rest : PairsHalves cs) :
      PairsHalves ('\\' :: 'u' :: a :: b :: c :: d :: cs)
  | pair {a b c d a' b' c' d' : Char} {high low : Nat} {cs : List Char}
      (first : codeUnit? a b c d = some high) (isHigh : isHighHalf high = true)
      (second : codeUnit? a' b' c' d' = some low) (isLow : isLowHalf low = true) (rest : PairsHalves cs) :
      PairsHalves ('\\' :: 'u' :: a :: b :: c :: d :: '\\' :: 'u' :: a' :: b' :: c' :: d' :: cs)

theorem pairsHalves_of_not_mem {cs : List Char} (h : '\\' ∉ cs) : PairsHalves cs := by
  induction cs with
  | nil => exact .nil
  | cons c cs ih =>
      rw [List.mem_cons, not_or] at h
      exact .plain (Ne.symm h.1) (ih h.2)

/-- An escape of digits in a text that pairs its halves is read as the character that it stands for, alone or with
the next one, and what is left up to the closing quote pairs its halves too. -/
theorem readDigits_of_pairsHalves {cs after rest letter : List Char} {x : Char}
    (pairs : PairsHalves ('\\' :: 'u' :: cs)) (h : readDigits letter (cs ++ '"' :: after) = .ok (x, rest)) :
    ∃ left, PairsHalves left ∧ rest = left ++ '"' :: after ∧
      ((∃ a b c d n, cs = a :: b :: c :: d :: left ∧ codeUnit? a b c d = some n ∧ x = Char.ofNat n) ∨
        ∃ a b c d a' b' c' d' high low,
          cs = a :: b :: c :: d :: '\\' :: 'u' :: a' :: b' :: c' :: d' :: left ∧
            codeUnit? a b c d = some high ∧ codeUnit? a' b' c' d' = some low ∧ x = pairChar high low) := by
  cases pairs with
  | plain isPlain _ => exact absurd rfl isPlain
  | letter isLetter _ => exact absurd rfl isLetter
  | @unit a b c d n left unit notHigh notLow pairs =>
      obtain ⟨y, tail, htail⟩ : ∃ y tail, left ++ '"' :: after = y :: tail :=
        List.exists_cons_of_ne_nil (by simp)
      simp only [List.cons_append, htail, readDigits, unit, notHigh, Bool.false_eq_true, if_false, unitChar,
        notLow, Bool.or_self] at h
      cases h
      exact ⟨left, pairs, htail.symm, .inl ⟨a, b, c, d, n, rfl, unit, rfl⟩⟩
  | @pair a b c d a' b' c' d' high low left first isHigh second isLow pairs =>
      obtain ⟨y, tail, htail⟩ : ∃ y tail, left ++ '"' :: after = y :: tail :=
        List.exists_cons_of_ne_nil (by simp)
      simp only [List.cons_append, htail, readDigits, first, isHigh, if_true, second] at h
      rw [if_pos isLow] at h
      obtain ⟨rfl, rfl⟩ := Prod.mk.inj (Except.ok.inj h)
      exact ⟨left, pairs, htail.symm, .inr ⟨a, b, c, d, a', b', c', d', high, low, rfl, first, second, rfl⟩⟩

/-! ### Texts -/

/-- An escape is read in one step. -/
theorem readText_of_readEscape {whole cs rest : List Char} {c : Char}
    (h : readEscape whole ('\\' :: cs) cs = .ok (c, rest)) (fuel : Nat) :
    readText whole (fuel + 1) ('\\' :: cs) =
      (readText whole fuel rest).map fun read => (c :: read.1, read.2) := by
  rw [readText, if_neg (by decide), if_neg (by decide), if_pos rfl, h]
  show (do let read ← readText whole fuel rest; return (c :: read.1, read.2)) = _
  cases readText whole fuel rest <;> rfl

theorem readText_of_ne {c : Char} (hquote : c ≠ '"') (hbackslash : c ≠ '\\')
    (hcontrol : ¬c.toNat < 0x20) (whole : List Char) (fuel : Nat) (rest : List Char) :
    readText whole (fuel + 1) (c :: rest) =
      (readText whole fuel rest).map fun read => (c :: read.1, read.2) := by
  rw [readText, if_neg hquote, if_neg hcontrol, if_neg hbackslash]
  show (do let read ← readText whole fuel rest; return (c :: read.1, read.2)) = _
  cases readText whole fuel rest <;> rfl

/-- A written character is read in one step, if another one follows. -/
theorem readText_escapeChar (whole : List Char) (fuel : Nat) (c x : Char) (rest : List Char) :
    readText whole (fuel + 1) (escapeChar c ++ x :: rest) =
      (readText whole fuel (x :: rest)).map fun read => (c :: read.1, read.2) := by
  rcases escapeChar_cases c with ⟨letter, hu, hescaped, h⟩ | ⟨hcontrol, h⟩ |
    ⟨hquote, hbackslash, hcontrol, h⟩
  · rw [h]
    exact readText_of_readEscape (readEscape_letter hu hescaped _ _ _) fuel
  · rw [h]
    exact readText_of_readEscape (readEscape_hex hcontrol _ _ x rest) fuel
  · rw [h]
    exact readText_of_ne hquote hbackslash hcontrol whole fuel (x :: rest)

/-- The characters of a text, its closing quote and what follows. -/
theorem readText_flatMap (whole : List Char) (rest : List Char) :
    ∀ (text : List Char) {fuel : Nat}, text.length < fuel →
      readText whole fuel (text.flatMap escapeChar ++ '"' :: rest) = .ok (text, rest) := by
  intro text
  induction text with
  | nil =>
      intro fuel hfuel
      obtain ⟨fuel, rfl⟩ := Nat.exists_eq_add_of_lt hfuel
      rw [List.flatMap_nil, List.nil_append, readText, if_pos rfl]
  | cons c text ih =>
      intro fuel hfuel
      cases fuel with
      | zero => omega
      | succ fuel =>
          obtain ⟨x, tail, hnext⟩ : ∃ x tail, text.flatMap escapeChar ++ '"' :: rest = x :: tail :=
            List.exists_cons_of_ne_nil (by simp)
          rw [List.flatMap_cons, List.append_assoc, hnext, readText_escapeChar, ← hnext,
            ih (Nat.lt_of_succ_lt_succ hfuel)]
          rfl

theorem length_le_flatMap_escapeChar (text : List Char) :
    text.length ≤ (text.flatMap escapeChar).length := by
  induction text with
  | nil => exact Nat.le_refl 0
  | cons c text ih =>
      have := List.length_pos_iff.mpr (escapeChar_ne_nil c)
      rw [List.flatMap_cons, List.length_append, List.length_cons]
      omega

/-- A text between quotes is read to its end, whatever follows. -/
theorem readText_writeText (text rest : List Char) :
    ∃ cs, writeText text ++ rest = '"' :: cs ∧ readText ('"' :: cs) cs.length cs = .ok (text, rest) := by
  refine ⟨text.flatMap escapeChar ++ '"' :: rest, by simp [writeText], ?_⟩
  have hlength := length_le_flatMap_escapeChar text
  refine readText_flatMap _ rest text ?_
  rw [List.length_append, List.length_cons]
  omega

end SchemaForge.Json
