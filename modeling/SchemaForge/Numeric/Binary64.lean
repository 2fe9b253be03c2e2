/-!
Numbers of the binary interchange format with 53 significant bits, as exact values: a magnitude is a
whole number of units of 2⁻¹⁰⁷⁴, the least one that the format holds. A decimal is rounded to the
nearest magnitude of the format, a half going to the even neighbour, in exact natural arithmetic;
nothing here rests on the machine's own floating point.
-/

namespace SchemaForge.Numeric

/-- How many units make one. -/
def unitsPerOne : Nat := Nat.pow 2 1074

/-- A magnitude of the format, counted in units of 2⁻¹⁰⁷⁴: its highest bit is
worth less than 2¹⁰²⁴, and no bit is set further than 52 places below it. -/
def Representable (units : Nat) : Prop :=
  units.log2 < 2098 ∧ units % Nat.pow 2 (units.log2 - 52) = 0

instance (units : Nat) : Decidable (Representable units) :=
  inferInstanceAs (Decidable (_ ∧ _))

theorem representable_zero : Representable 0 := by decide

/-- A number of the format. Zero has two signs, and there is one value that is no number. -/
inductive Binary64 where
  | nan
  | infinite (negative : Bool)
  | finite (negative : Bool) (units : Nat) (representable : Representable units)
  deriving DecidableEq

/-- A whole number times a power of ten. -/
structure Decimal where
  coefficient : Nat
  exponent : Int
  deriving DecidableEq

namespace Decimal

def strip : (fuel : Nat) → Decimal → Decimal
  | 0, d => d
  | fuel + 1, d =>
      if d.coefficient ≠ 0 ∧ d.coefficient % 10 = 0 then
        strip fuel ⟨d.coefficient / 10, d.exponent + 1⟩
      else d

/-- The one decimal of the same value whose coefficient does not end in a zero, if it is not zero. -/
def reduced (d : Decimal) : Decimal := strip d.coefficient.log2 d

/-- A decimal counted in units of 2⁻¹⁰⁷⁴, as a quotient. -/
def quotient (d : Decimal) : Nat × Nat :=
  (d.coefficient * Nat.pow 10 d.exponent.toNat * unitsPerOne, Nat.pow 10 (-d.exponent).toNat)

end Decimal

namespace Binary64

def zero (negative : Bool) : Binary64 := .finite negative 0 representable_zero

/-- The whole number nearest to `num / den`, a half going to the even neighbour. -/
def roundDiv (num den : Nat) : Nat :=
  let q := num / den
  let r := num % den
  if 2 * r < den then q
  else if den < 2 * r then q + 1
  else if q % 2 = 0 then q else q + 1

/-- `num / den` units rounded to a multiple of the power of two that leaves 53 significant bits. -/
def roundUnits (num den : Nat) : Nat :=
  let grid := Nat.pow 2 ((num / den).log2 - 52)
  roundDiv num (den * grid) * grid

/-- The number of the format nearest to `num / den` units; beyond the format lies infinity. -/
def nearest (negative : Bool) (num den : Nat) : Binary64 :=
  let units := roundUnits num den
  if h : Representable units then .finite negative units h else .infinite negative

/-- The number of the format nearest to a decimal. The decimal is reduced first, so that nothing depends on
how it is written; and one far outside the format's range is settled by its exponent, so that no power of
ten with an enormous exponent is ever formed. -/
def ofDecimal (negative : Bool) (d : Decimal) : Binary64 :=
  let d := d.reduced
  if d.coefficient = 0 then zero negative
  else if 400 ≤ d.exponent then .infinite negative
  else if d.exponent + (d.coefficient.log2 : Int) + 1 < -400 then zero negative
  else nearest negative d.quotient.1 d.quotient.2

/-- The whole number that a value is, when it is one. -/
def toInt? : Binary64 → Option Int
  | .finite negative units _ =>
      if units % unitsPerOne = 0 then
        let n : Int := (units / unitsPerOne : Nat)
        some (if negative then -n else n)
      else none
  | _ => none

def isZero : Binary64 → Bool
  | .finite _ units _ => units = 0
  | _ => false

end Binary64

end SchemaForge.Numeric
