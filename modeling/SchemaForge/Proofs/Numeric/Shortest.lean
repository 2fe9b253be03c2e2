import Mathlib.Tactic.Linarith
import Mathlib.Tactic.NormNum
import Mathlib.Tactic.Ring
import SchemaForge.Numeric.Shortest

/-!
The shortest decimal of a number reads back as the number. A decimal is read by its reduced form, so that
zeros at the end of its coefficient make no difference; a decimal that was chosen on a grid was chosen
because it reads back; and the exact decimal, which stands behind the grids, loses nothing when it is
rounded, since it is a number of the format already.
-/

namespace SchemaForge.Numeric

namespace Decimal

@[ext] theorem ext {d e : Decimal} (coefficient : d.coefficient = e.coefficient)
    (exponent : d.exponent = e.exponent) : d = e := by
  obtain ⟨c, i⟩ := d
  obtain ⟨c', j⟩ := e
  cases coefficient
  cases exponent
  rfl

/-! ### Reduced decimals -/

/-- With enough fuel all zeros come off the end, and the exponent says how many there were. -/
theorem exists_strip : ∀ {fuel : Nat} {d : Decimal}, d.coefficient ≠ 0 → d.coefficient.log2 ≤ fuel →
    ∃ k : Nat, (strip fuel d).coefficient % 10 ≠ 0 ∧
      d.coefficient = (strip fuel d).coefficient * 10 ^ k ∧
      (strip fuel d).exponent = d.exponent + k := by
  intro fuel
  induction fuel with
  | zero =>
      intro d hd hlog
      have hone : d.coefficient < 2 ^ (0 + 1) := (Nat.log2_lt hd).mp (by omega)
      exact ⟨0, by simp only [strip]; omega, (Nat.mul_one _).symm, (Int.add_zero _).symm⟩
  | succ fuel ih =>
      intro d hd hlog
      by_cases hzero : d.coefficient ≠ 0 ∧ d.coefficient % 10 = 0
      · have hquotient : d.coefficient / 10 ≠ 0 := by omega
        have hless : (d.coefficient / 10).log2 ≤ fuel := by
          have hlt : d.coefficient < 2 ^ (fuel + 1 + 1) := (Nat.log2_lt hd).mp (by omega)
          have hlt' : d.coefficient / 10 < 2 ^ (fuel + 1) := by
            rw [pow_succ] at hlt
            omega
          have := (Nat.log2_lt hquotient).mpr hlt'
          omega
        obtain ⟨k, hlast, hvalue, hexponent⟩ :=
          @ih ⟨d.coefficient / 10, d.exponent + 1⟩ hquotient hless
        dsimp only at hvalue hexponent
        rw [strip, if_pos hzero]
        refine ⟨k + 1, hlast, ?_, ?_⟩
        · rw [pow_succ, ← Nat.mul_assoc, ← hvalue]
          omega
        · rw [hexponent]
          push_cast
          ring
      · rw [strip, if_neg hzero]
        exact ⟨0, fun h => hzero ⟨hd, h⟩, (Nat.mul_one _).symm, (Int.add_zero _).symm⟩

theorem exists_reduced {d : Decimal} (h : d.coefficient ≠ 0) :
    ∃ k : Nat, d.reduced.coefficient % 10 ≠ 0 ∧ d.coefficient = d.reduced.coefficient * 10 ^ k ∧
      d.reduced.exponent = d.exponent + k :=
  exists_strip h (Nat.le_refl _)

theorem reduced_zero (e : Int) : reduced ⟨0, e⟩ = ⟨0, e⟩ := by
  rw [reduced, Nat.log2_zero, strip]

/-- Of two numbers that do not end in a zero the powers of ten cannot differ. -/
theorem eq_of_mul_pow_eq {a b k l : Nat} (ha : a % 10 ≠ 0) (hb : b % 10 ≠ 0)
    (h : a * 10 ^ k = b * 10 ^ l) : a = b ∧ k = l := by
  have hle : ∀ {a b k l : Nat}, a % 10 ≠ 0 → a * 10 ^ k = b * 10 ^ l → l ≤ k := by
    intro a b k l ha h
    by_contra hlt
    obtain ⟨m, rfl⟩ := Nat.exists_eq_add_of_lt (Nat.lt_of_not_le hlt)
    have hcancel : a = b * 10 ^ m * 10 := by
      refine Nat.eq_of_mul_eq_mul_right (show 0 < 10 ^ k by positivity) ?_
      rw [h]
      ring
    omega
  have heq : k = l := Nat.le_antisymm (hle hb h.symm) (hle ha h)
  subst heq
  exact ⟨Nat.eq_of_mul_eq_mul_right (by positivity) h, rfl⟩

/-- Zeros at the end of the coefficient make no difference. -/
theorem reduced_shift {c : Nat} (hc : c ≠ 0) (e : Int) (k : Nat) :
    reduced ⟨c * 10 ^ k, e - k⟩ = reduced ⟨c, e⟩ := by
  obtain ⟨i, hlast, hvalue, hexponent⟩ := @exists_reduced ⟨c, e⟩ hc
  obtain ⟨j, hlast', hvalue', hexponent'⟩ :=
    @exists_reduced ⟨c * 10 ^ k, e - k⟩ (Nat.mul_ne_zero hc (by positivity))
  dsimp only at hvalue hexponent hvalue' hexponent'
  have hpowers : (reduced ⟨c, e⟩).coefficient * 10 ^ (i + k) =
      (reduced ⟨c * 10 ^ k, e - k⟩).coefficient * 10 ^ j := by
    rw [← hvalue', pow_add, ← Nat.mul_assoc, ← hvalue]
  obtain ⟨hcoefficient, hpower⟩ := eq_of_mul_pow_eq hlast hlast' hpowers
  ext
  · exact hcoefficient.symm
  · rw [hexponent', hexponent]
    omega

theorem reduced_reduced (d : Decimal) : d.reduced.reduced = d.reduced := by
  by_cases hd : d.coefficient = 0
  · obtain ⟨c, e⟩ := d
    cases hd
    rw [reduced_zero, reduced_zero]
  · obtain ⟨k, hlast, hvalue, hexponent⟩ := exists_reduced hd
    have hne : d.reduced.coefficient ≠ 0 := fun h => hlast (by rw [h])
    have hshift := reduced_shift hne d.reduced.exponent k
    have hback : (⟨d.reduced.coefficient * 10 ^ k, d.reduced.exponent - k⟩ : Decimal) = d := by
      rw [← hvalue, hexponent, Int.add_sub_cancel]
    rw [← hshift, hback]

end Decimal

namespace Binary64

open Decimal (reduced_reduced reduced_shift exists_reduced)

/-! ### Reading decimals -/

theorem ofDecimal_congr {d e : Decimal} (h : d.reduced = e.reduced) (negative : Bool) :
    ofDecimal negative d = ofDecimal negative e := by
  rw [ofDecimal, ofDecimal, h]

theorem ofDecimal_reduced (negative : Bool) (d : Decimal) :
    ofDecimal negative d.reduced = ofDecimal negative d :=
  ofDecimal_congr (reduced_reduced d) negative

/-- Zeros at the end of the coefficient are not read. -/
theorem ofDecimal_shift (negative : Bool) {c : Nat} (hc : c ≠ 0) (e : Int) (k : Nat) :
    ofDecimal negative ⟨c * 10 ^ k, e - k⟩ = ofDecimal negative ⟨c, e⟩ :=
  ofDecimal_congr (reduced_shift hc e k) negative

theorem ofDecimal_zero (negative : Bool) (e : Int) :
    ofDecimal negative ⟨0, e⟩ = zero negative := by
  rw [ofDecimal, Decimal.reduced_zero]
  rfl

theorem nearest_of_false {num den units : Nat} {h : Representable units}
    (hn : nearest false num den = .finite false units h) (negative : Bool) :
    nearest negative num den = .finite negative units h := by
  unfold nearest at hn ⊢
  dsimp only at hn ⊢
  split at hn
  · next hrounded =>
      cases hn
      rw [dif_pos hrounded]
  · cases hn

/-- The sign has no part in rounding. -/
theorem ofDecimal_of_false {d : Decimal} {units : Nat} {h : Representable units}
    (hd : ofDecimal false d = .finite false units h) (negative : Bool) :
    ofDecimal negative d = .finite negative units h := by
  unfold ofDecimal at hd ⊢
  dsimp only at hd ⊢
  split at hd
  · next hzero =>
      cases hd
      rw [if_pos hzero]
      rfl
  · next hzero =>
      rw [if_neg hzero]
      split at hd
      · cases hd
      · next hlarge =>
          rw [if_neg hlarge]
          split at hd
          · next hsmall =>
              cases hd
              rw [if_pos hsmall]
              rfl
          · next hsmall =>
              rw [if_neg hsmall]
              exact nearest_of_false hd negative

/-! ### Numbers of the format -/

theorem roundDiv_mul {q den : Nat} (hden : 0 < den) : roundDiv (q * den) den = q := by
  unfold roundDiv
  dsimp only
  rw [Nat.mul_mod_left, Nat.mul_div_cancel q hden, if_pos (by omega)]

/-- A magnitude of the format is not changed by rounding. -/
theorem roundUnits_mul {units den : Nat} (h : Representable units) (hden : 0 < den) :
    roundUnits (units * den) den = units := by
  unfold roundUnits
  dsimp only
  rw [Nat.mul_div_cancel units hden]
  have hgrid : 0 < Nat.pow 2 (units.log2 - 52) := Nat.pow_pos (by omega)
  have hwhole : units / Nat.pow 2 (units.log2 - 52) * Nat.pow 2 (units.log2 - 52) = units :=
    Nat.div_mul_cancel (Nat.dvd_of_mod_eq_zero h.2)
  have hnum : units * den =
      units / Nat.pow 2 (units.log2 - 52) * (den * Nat.pow 2 (units.log2 - 52)) := by
    conv_lhs => rw [← hwhole]
    ring
  rw [hnum, roundDiv_mul (Nat.mul_pos hden hgrid), hwhole]

theorem nearest_mul {units den : Nat} (h : Representable units) (hden : 0 < den) :
    nearest false (units * den) den = .finite false units h := by
  unfold nearest
  dsimp only
  simp only [roundUnits_mul h hden]
  rw [dif_pos h]

/-- The exact decimal, in whatever way it is written, counts its units. -/
theorem units_of_exact {c k units n a b : Nat} (hvalue : c * 10 ^ k = units * 5 ^ n)
    (hpowers : a + n = k + b) : c * 10 ^ a * 2 ^ n = units * 10 ^ b := by
  refine Nat.eq_of_mul_eq_mul_right (show 0 < 5 ^ n by positivity) ?_
  calc c * 10 ^ a * 2 ^ n * 5 ^ n = c * 10 ^ (a + n) := by
        rw [Nat.mul_assoc, ← Nat.mul_pow, pow_add, ← Nat.mul_assoc]
    _ = c * 10 ^ k * 10 ^ b := by rw [hpowers, pow_add, ← Nat.mul_assoc]
    _ = units * 10 ^ b * 5 ^ n := by rw [hvalue]; ring

/-- The exact decimal of a number is not so large that its exponent settles it. -/
theorem exact_lt {c k units n i j : Nat} (hunits : units < 2 ^ (n + i + 2 * j)) (hij : j ≤ i)
    (hc : c ≠ 0) (hvalue : c * 10 ^ k = units * 5 ^ n) : k < n + i := by
  by_contra hk
  have hgap : 2 ^ (n + i + 2 * j) * 5 ^ n ≤ 10 ^ (n + i) := by
    have hfour : 4 ^ j ≤ 5 ^ i :=
      le_trans (Nat.pow_le_pow_left (by omega) j) (Nat.pow_le_pow_right (by omega) hij)
    calc 2 ^ (n + i + 2 * j) * 5 ^ n = 2 ^ (n + i) * 4 ^ j * 5 ^ n := by
          rw [pow_add, pow_mul]
          rfl
      _ ≤ 2 ^ (n + i) * 5 ^ i * 5 ^ n :=
          Nat.mul_le_mul_right _ (Nat.mul_le_mul_left _ hfour)
      _ = (2 * 5) ^ (n + i) := by
          rw [Nat.mul_pow, Nat.mul_assoc, ← pow_add, Nat.add_comm i n]
  have hsmall : units * 5 ^ n < 2 ^ (n + i + 2 * j) * 5 ^ n :=
    Nat.mul_lt_mul_of_pos_right hunits (by positivity)
  have hlarge : 10 ^ (n + i) ≤ c * 10 ^ k :=
    le_trans (Nat.pow_le_pow_right (by omega) (by omega)) (Nat.le_mul_of_pos_left _ (by omega))
  omega

/-- Nor is it so small. -/
theorem le_exact {c k l units n j : Nat} (hunits : units ≠ 0) (hc : c < 2 ^ l) (hj : 3 * j ≤ n)
    (hvalue : c * 10 ^ k = units * 5 ^ n) : 2 * j < l + k := by
  by_contra hk
  have hgap : 10 ^ (2 * j) ≤ 5 ^ n := by
    calc 10 ^ (2 * j) = 100 ^ j := by
          rw [pow_mul]
          rfl
      _ ≤ 125 ^ j := Nat.pow_le_pow_left (by omega) j
      _ = 5 ^ (3 * j) := by
          rw [pow_mul]
          rfl
      _ ≤ 5 ^ n := Nat.pow_le_pow_right (by omega) hj
  have hsmall : c * 10 ^ k < 10 ^ (l + k) := by
    calc c * 10 ^ k < 2 ^ l * 10 ^ k := Nat.mul_lt_mul_of_pos_right hc (by positivity)
      _ ≤ 10 ^ l * 10 ^ k := Nat.mul_le_mul_right _ (Nat.pow_le_pow_left (by omega) l)
      _ = 10 ^ (l + k) := (pow_add 10 l k).symm
  have hle : 10 ^ (l + k) ≤ 10 ^ (2 * j) := Nat.pow_le_pow_right (by omega) (by omega)
  have hlarge : 5 ^ n ≤ units * 5 ^ n := Nat.le_mul_of_pos_left _ (by omega)
  omega

/-- A decimal that is worth a number of units exactly is read as that number. The powers are those of the
format, and too large to be formed. -/
theorem nearest_of_exact {units k n : Nat} (hn : n = 1074) (h : Representable units) {r : Decimal}
    (hvalue : r.coefficient * 10 ^ k = units * 5 ^ n) (hexponent : r.exponent = k - n) :
    nearest false r.quotient.1 r.quotient.2 = .finite false units h := by
  have hden : 0 < 10 ^ (-r.exponent).toNat := by positivity
  have hnum : r.coefficient * 10 ^ r.exponent.toNat * 2 ^ n = units * 10 ^ (-r.exponent).toNat :=
    units_of_exact hvalue (by omega)
  have hquotient : r.quotient = (units * 10 ^ (-r.exponent).toNat, 10 ^ (-r.exponent).toNat) := by
    unfold Decimal.quotient unitsPerOne
    rw [← hn]
    exact Prod.ext hnum rfl
  rw [hquotient]
  exact nearest_mul h hden

/-- The exact decimal of a number is read as the number. -/
theorem ofDecimal_ofUnits {units : Nat} (h : Representable units) (hunits : units ≠ 0) :
    ofDecimal false (.ofUnits units) = .finite false units h := by
  obtain ⟨n, hn⟩ : ∃ n, n = 1074 := ⟨1074, rfl⟩
  have hexact : Decimal.ofUnits units = ⟨units * Nat.pow 5 n, -n⟩ := by
    rw [Decimal.ofUnits, ← hn]
    exact Decimal.ext rfl (by dsimp only; omega)
  rw [hexact]
  have hne : units * 5 ^ n ≠ 0 := Nat.mul_ne_zero hunits (Nat.pow_pos (by omega)).ne'
  obtain ⟨k, hlast, hvalue, hexponent⟩ := @exists_reduced ⟨units * Nat.pow 5 n, -n⟩ hne
  unfold ofDecimal
  dsimp only
  generalize (Decimal.reduced ⟨units * Nat.pow 5 n, -n⟩) = r at *
  have hvalue : r.coefficient * 10 ^ k = units * 5 ^ n := hvalue.symm
  have hexponent : r.exponent = -n + k := hexponent
  have hc : r.coefficient ≠ 0 := fun hzero => hlast (by rw [hzero])
  have hbound : units < 2 ^ (n + 400 + 2 * 312) := (Nat.log2_lt hunits).mp (by
    have := h.1
    omega)
  have hlow := exact_lt hbound (by omega) hc hvalue
  have hhigh := le_exact hunits (Nat.lt_log2_self) (show 3 * 337 ≤ n by omega) hvalue
  rw [if_neg hc, if_neg (by omega), if_neg (by omega)]
  exact nearest_of_exact hn h hvalue (by omega)

/-! ### The shortest decimal -/

theorem ofDecimal_of_readsAs {units : Nat} {d : Decimal} (hread : d.readsAs units = true)
    (h : Representable units) : ofDecimal false d = .finite false units h := by
  unfold Decimal.readsAs at hread
  split at hread
  · next read hrepresentable heq =>
      rw [heq]
      have := of_decide_eq_true hread
      subst this
      rfl
  · cases hread

theorem readsAs_of_onGrid? {units scaled width count : Nat} {d : Decimal}
    (hgrid : Decimal.onGrid? units scaled width count = some d) : d.readsAs units = true := by
  unfold Decimal.onGrid? at hgrid
  dsimp only at hgrid
  split at hgrid
  · next hlow hhigh =>
      rw [← Option.some.inj hgrid]
      split
      · exact hhigh
      · exact hlow
  · next hlow _ =>
      rw [← Option.some.inj hgrid]
      exact hlow
  · next _ hhigh =>
      rw [← Option.some.inj hgrid]
      exact hhigh
  · cases hgrid

theorem ofDecimal_shortest_zero (negative : Bool) :
    ofDecimal negative (.shortest 0) = zero negative := by
  rw [Decimal.shortest, if_pos rfl]
  exact ofDecimal_zero negative 0

/-- The shortest decimal of a magnitude reads back as the magnitude. -/
theorem ofDecimal_shortest {units : Nat} (h : Representable units) (negative : Bool) :
    ofDecimal negative (.shortest units) = .finite negative units h := by
  rcases Nat.eq_zero_or_pos units with hzero | hpos
  · subst hzero
    exact ofDecimal_shortest_zero negative
  · rw [Decimal.shortest, if_neg hpos.ne']
    dsimp only
    rw [ofDecimal_reduced]
    refine ofDecimal_of_false ?_ negative
    cases hfound : (List.range' 1 17).findSome?
        (Decimal.onGrid? units (Decimal.scaled units) (digits (Decimal.scaled units)).length) with
    | none => exact ofDecimal_ofUnits h hpos.ne'
    | some d =>
        obtain ⟨count, -, hgrid⟩ := List.exists_of_findSome?_eq_some hfound
        exact ofDecimal_of_readsAs (readsAs_of_onGrid? hgrid) h

end Binary64

end SchemaForge.Numeric
