import SchemaForge.Json.Printer
import SchemaForge.Json.Reader
import SchemaForge.Proofs.Lists
import SchemaForge.Proofs.Numeric.Shortest

/-!
A written number reads back as the number. An integer is the row of its digits. The text of a binary number
is laid out with a point or with an exponent, so that it is not taken for an integer, and in either layout
it denotes the shortest decimal of the number, which is read as the number.
-/

namespace SchemaForge

namespace Numeric

theorem isDigit_of_mem_digits {n : Nat} {c : Char} (h : c ∈ digits n) : c.isDigit = true :=
  Nat.isDigit_of_mem_toDigits (by omega) (by omega) h

/-- The digits of a number do not begin with a zero. -/
theorem exists_digits_eq_cons {n : Nat} (hn : n ≠ 0) : ∃ c ds, digits n = c :: ds ∧ c ≠ '0' := by
  induction n using Nat.strongRecOn with
  | ind n ih =>
      by_cases hlt : n < 10
      · have hall : ∀ n < 10, n ≠ 0 → Nat.digitChar n ≠ '0' := by decide
        exact ⟨n.digitChar, [], Nat.toDigits_of_lt_base hlt, hall n hlt hn⟩
      · obtain ⟨c, ds, hcs, hc⟩ := ih (n / 10) (by omega) (by omega)
        refine ⟨c, ds ++ [(n % 10).digitChar], ?_, hc⟩
        rw [digits, Nat.toDigits_of_base_le (by omega) (by omega), ← digits, hcs, List.cons_append]

end Numeric

namespace Json

open Numeric (Binary64 Decimal digits)

/-! ### Rows of digits -/

/-- A text that does not go on with a digit. -/
def EndsDigits (rest : List Char) : Prop := ∀ c ∈ rest.head?, c.isDigit = false

/-- A text that goes on with nothing that could belong to a number. -/
def EndsNumber (rest : List Char) : Prop :=
  ∀ c ∈ rest.head?, c.isDigit = false ∧ c ≠ '.' ∧ c ≠ 'e' ∧ c ≠ 'E'

theorem EndsNumber.endsDigits {rest : List Char} (h : EndsNumber rest) : EndsDigits rest :=
  fun c hc => (h c hc).1

theorem endsDigits_cons {c : Char} (h : c.isDigit = false) (rest : List Char) : EndsDigits (c :: rest) := by
  intro d hd
  rwa [← Option.some.inj hd]

theorem spanDigits_append {ds rest : List Char} (hds : ∀ c ∈ ds, c.isDigit = true)
    (hrest : EndsDigits rest) : spanDigits (ds ++ rest) = (ds, rest) := by
  rw [spanDigits, takeWhile_append_of_ends hds hrest, dropWhile_append_of_ends hds hrest]

/-- The digits before a point: a lone zero, or a row that does not begin with one. -/
inductive WholePart : List Char → Prop where
  | zero : WholePart ['0']
  | row {c : Char} {ds : List Char} (first : c ≠ '0') (digits : ∀ d ∈ c :: ds, d.isDigit = true) :
      WholePart (c :: ds)

theorem wholePart_digits (n : Nat) : WholePart (digits n) := by
  by_cases hn : n = 0
  · subst hn
    exact .zero
  · obtain ⟨c, ds, hcs, hc⟩ := Numeric.exists_digits_eq_cons hn
    rw [hcs]
    exact .row hc fun d hd => Numeric.isDigit_of_mem_digits (hcs ▸ hd)

/-- The first digits of a row are a whole part. -/
theorem wholePart_take {n : Nat} (hn : n ≠ 0) {zeros : List Char} (hzeros : ∀ c ∈ zeros, c.isDigit = true)
    (k : Nat) : WholePart ((digits n ++ zeros).take (k + 1)) := by
  obtain ⟨c, ds, hcs, hc⟩ := Numeric.exists_digits_eq_cons hn
  rw [hcs, List.cons_append, List.take_succ_cons]
  refine .row hc fun d hd => ?_
  rcases List.mem_cons.mp hd with rfl | hd
  · exact Numeric.isDigit_of_mem_digits (hcs ▸ List.mem_cons_self)
  · rcases List.mem_append.mp (List.mem_of_mem_take hd) with hd | hd
    · exact Numeric.isDigit_of_mem_digits (hcs ▸ List.mem_cons_of_mem _ hd)
    · exact hzeros d hd

theorem WholePart.head {whole : List Char} (h : WholePart whole) :
    ∃ c ds, whole = c :: ds ∧ c.isDigit = true := by
  cases h with
  | zero => exact ⟨_, _, rfl, rfl⟩
  | row first digits => exact ⟨_, _, rfl, digits _ List.mem_cons_self⟩

theorem readWhole_append {whole rest : List Char} (h : WholePart whole) (hrest : EndsDigits rest) :
    readWhole (whole ++ rest) = some (whole, rest) := by
  cases h with
  | zero => rfl
  | row first digits =>
      unfold readWhole
      split
      · next heq => exact absurd (List.cons.inj heq).1 first
      · rw [spanDigits_append digits hrest]

/-! ### Fractions and exponents -/

theorem readFraction_of_endsNumber {rest : List Char} (h : EndsNumber rest) : readFraction rest = none := by
  unfold readFraction
  split
  · exact absurd rfl (h '.' rfl).2.1
  · rfl

theorem readFraction_append {ds rest : List Char} (hne : ds ≠ []) (hds : ∀ c ∈ ds, c.isDigit = true)
    (hrest : EndsDigits rest) : readFraction ('.' :: (ds ++ rest)) = some (ds, rest) := by
  rw [readFraction, spanDigits_append hds hrest]
  cases ds with
  | nil => exact absurd rfl hne
  | cons d ds => rfl

theorem readExponent_of_endsNumber {rest : List Char} (h : EndsNumber rest) : readExponent rest = none := by
  unfold readExponent
  split
  · next c cs =>
      obtain ⟨-, -, hlower, hupper⟩ := h c rfl
      rw [if_neg (not_or.mpr ⟨hlower, hupper⟩)]
  · rfl

theorem ofDigitChars_padded (k n : Nat) :
    Nat.ofDigitChars 10 (List.replicate k '0' ++ digits n) 0 = n := by
  rw [Nat.ofDigitChars_append, Nat.ofDigitChars_replicate_zero, Nat.mul_zero,
    Numeric.ofDigitChars_digits]

theorem isDigit_of_mem_padded {k n : Nat} {c : Char} (h : c ∈ List.replicate k '0' ++ digits n) :
    c.isDigit = true := by
  rcases List.mem_append.mp h with h | h
  · rw [List.eq_of_mem_replicate h]
    rfl
  · exact Numeric.isDigit_of_mem_digits h

/-- A written exponent is read with its sign, however it is padded. -/
theorem readExponent_append (k : Nat) (power : Int) {rest : List Char} (hrest : EndsDigits rest) :
    readExponent ('e' :: (if power < 0 then '-' else '+') ::
      (List.replicate k '0' ++ digits power.natAbs ++ rest)) = some (power, rest) := by
  have hspan := spanDigits_append (fun c => isDigit_of_mem_padded (k := k) (n := power.natAbs)) hrest
  have hvalue := ofDigitChars_padded k power.natAbs
  have hne : List.replicate k '0' ++ digits power.natAbs ≠ [] := by simp
  generalize List.replicate k '0' ++ digits power.natAbs = ds at *
  obtain ⟨d, ds, rfl⟩ := List.exists_cons_of_ne_nil hne
  by_cases hneg : power < 0
  · have hsign : -((power.natAbs : Nat) : Int) = power := by omega
    simp only [if_pos hneg, readExponent, true_or, if_true, hspan, hvalue, hsign]
  · have hsign : ((power.natAbs : Nat) : Int) = power := by omega
    simp only [if_neg hneg, readExponent, true_or, if_true, hspan, hvalue, Bool.false_eq_true, if_false,
      hsign]

/-! ### Magnitudes -/

/-- A lone whole part is an integer. -/
theorem readMagnitude_whole {whole rest : List Char} (h : WholePart whole) (hrest : EndsNumber rest)
    (hlength : whole.length ≤ Numeric.mostDigits) (start : List Char) (negative : Bool) :
    readMagnitude start negative (whole ++ rest) =
      .ok (.int (if negative then -(Nat.ofDigitChars 10 whole 0 : Int) else Nat.ofDigitChars 10 whole 0),
        rest) := by
  simp only [readMagnitude, readWhole_append h hrest.endsDigits, readFraction_of_endsNumber hrest,
    readExponent_of_endsNumber hrest]
  rw [if_neg (by omega)]

/-- A whole part with an exponent is a number of the binary format. -/
theorem readMagnitude_exponent {whole rest : List Char} (h : WholePart whole) (hrest : EndsDigits rest)
    (k : Nat) (power : Int) (start : List Char) (negative : Bool) :
    readMagnitude start negative (whole ++ 'e' :: (if power < 0 then '-' else '+') ::
        (List.replicate k '0' ++ digits power.natAbs ++ rest)) =
      .ok (.float (.ofDecimal negative ⟨Nat.ofDigitChars 10 whole 0, power⟩), rest) := by
  have hfraction : ∀ cs : List Char, readFraction ('e' :: cs) = none := fun _ => rfl
  simp only [readMagnitude, readWhole_append h (endsDigits_cons (by decide : 'e'.isDigit = false) _),
    hfraction, readExponent_append k power hrest]

/-- And so is a whole part with a fraction, whether an exponent follows it or not. -/
theorem readMagnitude_fraction {whole ds tail rest : List Char} {power : Int} (h : WholePart whole)
    (hne : ds ≠ []) (hds : ∀ c ∈ ds, c.isDigit = true) (htail : EndsDigits tail)
    (hpower : (readExponent tail).getD (0, tail) = (power, rest)) (start : List Char) (negative : Bool) :
    readMagnitude start negative (whole ++ '.' :: (ds ++ tail)) =
      .ok (.float (.ofDecimal negative ⟨Nat.ofDigitChars 10 (whole ++ ds) 0, power - ds.length⟩), rest) := by
  simp only [readMagnitude, readWhole_append h (endsDigits_cons (by decide : '.'.isDigit = false) _),
    readFraction_append hne hds htail, hpower]

/-! ### Layouts -/

/-- What a magnitude denotes, before its sign. -/
def Denotes (text : List Char) (d : Decimal) : Prop :=
  (∃ c cs, text = c :: cs ∧ c.isDigit = true) ∧
    ∀ (negative : Bool) (start rest : List Char), EndsNumber rest →
      readMagnitude start negative (text ++ rest) = .ok (.float (.ofDecimal negative d), rest)

theorem denotes_fraction {whole ds : List Char} {d : Decimal} (h : WholePart whole) (hne : ds ≠ [])
    (hds : ∀ c ∈ ds, c.isDigit = true)
    (hvalue : ∀ negative, Binary64.ofDecimal negative ⟨Nat.ofDigitChars 10 (whole ++ ds) 0, -ds.length⟩ =
      .ofDecimal negative d) : Denotes (whole ++ '.' :: ds) d := by
  refine ⟨?_, fun negative start rest hrest => ?_⟩
  · obtain ⟨c, cs, rfl, hc⟩ := h.head
    exact ⟨c, _, rfl, hc⟩
  · have hpower : (readExponent rest).getD (0, rest) = (0, rest) := by
      rw [readExponent_of_endsNumber hrest]
      rfl
    rw [List.append_assoc, List.cons_append,
      readMagnitude_fraction h hne hds hrest.endsDigits hpower, Int.zero_sub, hvalue]

theorem ofDigitChars_zeros (n k : Nat) :
    Nat.ofDigitChars 10 (digits n ++ List.replicate k '0') 0 = n * 10 ^ k := by
  rw [Nat.ofDigitChars_append, Nat.ofDigitChars_replicate_zero, Numeric.ofDigitChars_digits, Nat.mul_comm]

theorem isDigit_of_mem_zeros {k : Nat} {c : Char} (h : c ∈ List.replicate k '0') : c.isDigit = true := by
  rw [List.eq_of_mem_replicate h]
  rfl

variable {d : Decimal} {lead : Int}

/-- Below one the whole part is a zero, and zeros stand between the point and the digits. -/
theorem denotes_positional_of_neg (hlead : lead = d.exponent + (digits d.coefficient).length - 1)
    (hneg : lead < 0) : Denotes (Numeric.Layout.positional (digits d.coefficient) lead) d := by
  rw [Numeric.Layout.positional, if_pos hneg]
  refine @denotes_fraction ['0'] _ _ .zero (by simp) (fun c => isDigit_of_mem_padded)
    fun negative => ?_
  have hzero : Nat.ofDigitChars 10 ['0'] 0 = 0 := by decide
  have hlength : ((List.replicate (-lead - 1).toNat '0' ++ digits d.coefficient).length : Int) =
      -d.exponent := by
    rw [List.length_append, List.length_replicate]
    omega
  rw [Nat.ofDigitChars_append, hzero, ofDigitChars_padded, hlength, Int.neg_neg]

/-- From one on the point divides the digits, or stands behind them and the zeros that they need. -/
theorem denotes_positional_of_nonneg (hd : d.coefficient ≠ 0)
    (hlead : lead = d.exponent + (digits d.coefficient).length - 1) (hpos : ¬lead < 0) :
    Denotes (Numeric.Layout.positional (digits d.coefficient) lead) d := by
  rw [Numeric.Layout.positional, if_neg hpos]
  dsimp only
  have hzeros : ∀ c ∈ List.replicate (lead.toNat + 1 - (digits d.coefficient).length) '0',
      c.isDigit = true := fun c => isDigit_of_mem_zeros
  have hwhole := wholePart_take hd hzeros lead.toNat
  by_cases hlength : (digits d.coefficient).length ≤ lead.toNat + 1
  · have hfits : (digits d.coefficient ++
        List.replicate (lead.toNat + 1 - (digits d.coefficient).length) '0').length ≤ lead.toNat + 1 := by
      rw [List.length_append, List.length_replicate]
      omega
    rw [List.take_of_length_le hfits] at hwhole ⊢
    rw [List.drop_of_length_le hfits, List.isEmpty_nil, if_pos rfl]
    refine denotes_fraction hwhole (by simp) (List.forall_mem_singleton.mpr rfl) fun negative => ?_
    have hvalue : Nat.ofDigitChars 10 (digits d.coefficient ++
          List.replicate (lead.toNat + 1 - (digits d.coefficient).length) '0' ++ ['0']) 0 =
        d.coefficient * 10 ^ (d.exponent.toNat + 1) := by
      have hexponent : lead.toNat + 1 - (digits d.coefficient).length = d.exponent.toNat := by omega
      rw [hexponent, List.append_assoc, ← List.replicate_succ', ofDigitChars_zeros]
    have hpower : (-(['0'] : List Char).length : Int) = d.exponent - (d.exponent.toNat + 1 : Nat) := by
      simp only [List.length_singleton]
      omega
    rw [hvalue, hpower]
    exact Binary64.ofDecimal_shift negative hd d.exponent (d.exponent.toNat + 1)
  · have hnone : lead.toNat + 1 - (digits d.coefficient).length = 0 := by omega
    rw [hnone, List.replicate_zero, List.append_nil] at hwhole ⊢
    have hrest : (digits d.coefficient).drop (lead.toNat + 1) ≠ [] := by
      rw [ne_eq, List.drop_eq_nil_iff]
      exact hlength
    rw [if_neg (by rwa [List.isEmpty_iff])]
    refine denotes_fraction hwhole hrest
      (fun c hc => Numeric.isDigit_of_mem_digits (List.mem_of_mem_drop hc)) fun negative => ?_
    have hpower : (-((digits d.coefficient).drop (lead.toNat + 1)).length : Int) = d.exponent := by
      rw [List.length_drop]
      omega
    rw [List.take_append_drop, Numeric.ofDigitChars_digits, hpower]

/-- In scientific notation the point stands behind the first digit, if there are more. -/
theorem denotes_scientific (layout : Numeric.Layout) (hd : d.coefficient ≠ 0)
    (hlead : lead = d.exponent + (digits d.coefficient).length - 1) :
    Denotes (layout.scientific (digits d.coefficient) lead) d := by
  have hvalue := Numeric.ofDigitChars_digits d.coefficient
  have hdigits : ∀ c ∈ digits d.coefficient, c.isDigit = true := fun c => Numeric.isDigit_of_mem_digits
  obtain ⟨c, ds, hcs, hc⟩ := Numeric.exists_digits_eq_cons hd
  rw [hcs] at hlead hvalue hdigits ⊢
  have hwhole : WholePart [c] :=
    .row hc fun e he => hdigits e (List.mem_singleton.mp he ▸ List.mem_cons_self)
  refine ⟨⟨c, _, rfl, hdigits c List.mem_cons_self⟩, fun negative start rest hrest => ?_⟩
  cases ds with
  | nil =>
      have hpower : lead = d.exponent := by
        rw [hlead, List.length_singleton]
        omega
      have hread := readMagnitude_exponent hwhole hrest.endsDigits
        (layout.exponentWidth - (digits lead.natAbs).length) lead start negative
      rw [hvalue, hpower] at hread
      simpa [Numeric.Layout.scientific, hpower] using hread
  | cons e ds =>
      have hpower : lead - (e :: ds).length = d.exponent := by
        rw [hlead, List.length_cons]
        omega
      have hexponent := readExponent_append (layout.exponentWidth - (digits lead.natAbs).length) lead
        hrest.endsDigits
      have hread := @readMagnitude_fraction [c] (e :: ds) _ rest lead hwhole (List.cons_ne_nil e ds)
        (fun f hf => hdigits f (List.mem_cons_of_mem _ hf))
        (endsDigits_cons (by decide : 'e'.isDigit = false) _)
        (by rw [hexponent, Option.getD_some]) start negative
      rw [List.singleton_append, List.singleton_append, hvalue, hpower] at hread
      simpa [Numeric.Layout.scientific] using hread

/-- The text of a decimal denotes it, in either layout. -/
theorem denotes_text (layout : Numeric.Layout) (hd : d.coefficient ≠ 0) : Denotes (layout.text d) d := by
  unfold Numeric.Layout.text
  dsimp only
  split
  · by_cases hneg : d.exponent + (digits d.coefficient).length - 1 < 0
    · exact denotes_positional_of_neg rfl hneg
    · exact denotes_positional_of_nonneg hd rfl hneg
  · exact denotes_scientific layout hd rfl

theorem denotes_zero : Denotes (Numeric.Layout.standard.text ⟨0, 0⟩) ⟨0, 0⟩ := by
  have htext : Numeric.Layout.standard.text ⟨0, 0⟩ = ['0'] ++ '.' :: ['0'] := by decide
  rw [htext]
  refine denotes_fraction .zero (by simp) (List.forall_mem_singleton.mpr rfl) fun negative => ?_
  have hvalue : Nat.ofDigitChars 10 (['0'] ++ ['0']) 0 = 0 := by decide
  rw [hvalue, Binary64.ofDecimal_zero, Binary64.ofDecimal_zero]

/-- The text of a magnitude denotes its shortest decimal. -/
theorem denotes_shortest {units : Nat} (h : Numeric.Representable units) :
    Denotes (Numeric.Layout.standard.text (.shortest units)) (.shortest units) := by
  by_cases hd : (Decimal.shortest units).coefficient = 0
  · have hread := Binary64.ofDecimal_shortest h false
    have hzero : Decimal.shortest units = ⟨0, (Decimal.shortest units).exponent⟩ :=
      Decimal.ext hd rfl
    rw [hzero, Binary64.ofDecimal_zero, Binary64.zero] at hread
    injection hread with _ hunits
    rw [← hunits, Decimal.shortest, if_pos rfl]
    exact denotes_zero
  · exact denotes_text _ hd

/-! ### Numbers -/

theorem readNumber_of_isDigit {c : Char} {cs : List Char} (h : c.isDigit = true) :
    readNumber (c :: cs) = readMagnitude (c :: cs) false (c :: cs) := by
  unfold readNumber
  split
  · next heq =>
      rw [(List.cons.inj heq).1] at h
      cases h
  · rfl

/-- A finite number is read with its sign, of zero too. -/
theorem readNumber_finiteText {units : Nat} (h : Numeric.Representable units) (negative : Bool)
    {rest : List Char} (hrest : EndsNumber rest) :
    readNumber (Numeric.finiteText negative units ++ rest) =
      .ok (.float (.finite negative units h), rest) := by
  obtain ⟨⟨c, cs, hcs, hc⟩, hread⟩ := denotes_shortest h
  have hvalue := Binary64.ofDecimal_shortest h negative
  unfold Numeric.finiteText
  dsimp only
  cases negative with
  | true =>
      rw [if_pos rfl, List.cons_append, readNumber, hread true _ rest hrest, hvalue]
  | false =>
      rw [if_neg (by decide), hcs, List.cons_append, readNumber_of_isDigit hc, ← List.cons_append, ← hcs,
        hread false _ rest hrest, hvalue]

/-- An integer that is not too long is read with its sign. -/
theorem readNumber_intText {i : Int} (hlength : (digits i.natAbs).length ≤ Numeric.mostDigits)
    {rest : List Char} (hrest : EndsNumber rest) :
    readNumber (Numeric.intText i ++ rest) = .ok (.int i, rest) := by
  have hwhole := wholePart_digits i.natAbs
  have hread := readMagnitude_whole hwhole hrest hlength
  have hvalue := Numeric.ofDigitChars_digits i.natAbs
  unfold Numeric.intText
  by_cases hneg : i < 0
  · have hsign : -((i.natAbs : Nat) : Int) = i := by omega
    rw [if_pos hneg, List.cons_append, readNumber, hread, if_pos rfl, hvalue, hsign]
  · have hsign : ((i.natAbs : Nat) : Int) = i := by omega
    obtain ⟨c, cs, hcs, hc⟩ := hwhole.head
    rw [if_neg hneg, hcs, List.cons_append, readNumber_of_isDigit hc, ← List.cons_append, ← hcs, hread,
      if_neg (by decide), hvalue, hsign]

/-! ### Numbers among other values -/

/-- A text that begins with a digit or with a minus and a digit. -/
def StartsNumber (text : List Char) : Prop :=
  ∃ c cs, c.isDigit = true ∧ (text = c :: cs ∨ text = '-' :: c :: cs)

theorem StartsNumber.append {text : List Char} (h : StartsNumber text) (rest : List Char) :
    StartsNumber (text ++ rest) := by
  obtain ⟨c, cs, hc, rfl | rfl⟩ := h
  · exact ⟨c, cs ++ rest, hc, .inl rfl⟩
  · exact ⟨c, cs ++ rest, hc, .inr rfl⟩

theorem startsNumber_finiteText {units : Nat} (h : Numeric.Representable units) (negative : Bool) :
    StartsNumber (Numeric.finiteText negative units) := by
  obtain ⟨⟨c, cs, hcs, hc⟩, -⟩ := denotes_shortest h
  refine ⟨c, cs, hc, ?_⟩
  rw [Numeric.finiteText, hcs]
  cases negative with
  | true => exact .inr rfl
  | false => exact .inl rfl

theorem startsNumber_intText (i : Int) : StartsNumber (Numeric.intText i) := by
  obtain ⟨c, cs, hcs, hc⟩ := (wholePart_digits i.natAbs).head
  refine ⟨c, cs, hc, ?_⟩
  rw [Numeric.intText, hcs]
  split
  · exact .inr rfl
  · exact .inl rfl

theorem ne_of_isDigit {c d : Char} (hc : c.isDigit = true) (hd : d.isDigit = false) : d ≠ c := by
  rintro rfl
  rw [hc] at hd
  cases hd

/-- A number is not taken for a word, the negative infinity included. -/
theorem readAtom_of_startsNumber {text : List Char} (h : StartsNumber text) :
    readAtom text = readNumber text := by
  have hnone : words.find? (fun w => w.1.isPrefixOf text) = none := by
    obtain ⟨c, cs, hc, htext⟩ := h
    have hne : ∀ d, d.isDigit = false → (d == c) = false := fun d hd =>
      beq_false_of_ne (ne_of_isDigit hc hd)
    rcases htext with rfl | rfl <;> simp [words, List.isPrefixOf, hne]
  rw [readAtom, hnone]

end Json

end SchemaForge
