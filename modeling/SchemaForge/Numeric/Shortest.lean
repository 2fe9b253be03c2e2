import SchemaForge.Numeric.Binary64
import SchemaForge.Numeric.Numeral

/-!
The shortest decimal of a number: on the decimal grids of one, two, … seventeen digits in turn, the two
neighbours of the magnitude are tried by reading them back, and the first grid with a hit decides. What
is chosen therefore reads back by construction, and the exact decimal stands behind as a last resort.
The text of a decimal is a matter of layout: positional for the middle exponents and scientific for the
rest.
-/

namespace SchemaForge.Numeric

namespace Decimal

/-- The exact decimal value of a number of units of 2⁻¹⁰⁷⁴. -/
def ofUnits (units : Nat) : Decimal := ⟨units * Nat.pow 5 1074, -1074⟩

/-- The magnitude in units of 10⁻³⁴¹, rounded down. Every magnitude but zero has at least 17 digits
there, so that its first digits are those of the magnitude itself. -/
def scaled (units : Nat) : Nat := units * Nat.pow 10 341 / unitsPerOne

/-- The greatest decimal of `count` digits that does not exceed a magnitude, which is given in units of
10⁻³⁴¹ with the number of its digits. -/
def below (scaled width count : Nat) : Decimal :=
  let drop := width - count
  ⟨scaled / Nat.pow 10 drop, (drop : Int) - 341⟩

/-- The next decimal on the same grid. -/
def next (d : Decimal) : Decimal := { d with coefficient := d.coefficient + 1 }

/-- Whether the magnitude lies nearer to `d.next` than to `d`; half way, the even one of the two
counts as nearer. -/
def favorsNext (units : Nat) (d : Decimal) : Bool :=
  let num := units * Nat.pow 10 (-d.exponent).toNat
  let den := unitsPerOne * Nat.pow 10 d.exponent.toNat
  Binary64.roundDiv num den ≠ d.coefficient

/-- Whether a decimal reads back as the given magnitude. -/
def readsAs (units : Nat) (d : Decimal) : Bool :=
  match Binary64.ofDecimal false d with
  | .finite false read _ => read = units
  | _ => false

/-- The decimal of `count` digits that stands for the magnitude, if one does. -/
def onGrid? (units scaled width count : Nat) : Option Decimal :=
  let low := below scaled width count
  let high := low.next
  match readsAs units low, readsAs units high with
  | true, true => some (if favorsNext units low then high else low)
  | true, false => some low
  | false, true => some high
  | false, false => none

/-- The shortest decimal that reads back as the given magnitude. -/
def shortest (units : Nat) : Decimal :=
  if units = 0 then ⟨0, 0⟩
  else
    let s := scaled units
    let width := (digits s).length
    (((List.range' 1 17).findSome? (onGrid? units s width)).getD (ofUnits units)).reduced

end Decimal

/-- How decimals are laid out: the exponents written in positional notation, and the least number of
digits of a written exponent. -/
structure Layout where
  leastPositional : Int
  mostPositional : Int
  exponentWidth : Nat

/-- Positional from 10⁻⁴ up to 10¹⁶, and exponents of at least two digits. -/
def Layout.standard : Layout := ⟨-4, 15, 2⟩

namespace Layout

/-- The digits `ds`, of which the first is worth `10 ^ lead`, in positional notation, always with a
point and a digit after it. -/
def positional (ds : List Char) (lead : Int) : List Char :=
  if lead < 0 then
    '0' :: '.' :: (List.replicate (-lead - 1).toNat '0' ++ ds)
  else
    let whole := lead.toNat + 1
    let padded := ds ++ List.replicate (whole - ds.length) '0'
    let rest := padded.drop whole
    padded.take whole ++ '.' :: (if rest.isEmpty then ['0'] else rest)

/-- The digits `ds`, of which the first is worth `10 ^ lead`, in scientific notation. -/
def scientific (layout : Layout) (ds : List Char) (lead : Int) : List Char :=
  let power := digits lead.natAbs
  let point := match ds.drop 1 with
    | [] => []
    | rest => '.' :: rest
  ds.take 1 ++ point ++ 'e' :: (if lead < 0 then '-' else '+') ::
    (List.replicate (layout.exponentWidth - power.length) '0' ++ power)

def text (layout : Layout) (d : Decimal) : List Char :=
  let ds := digits d.coefficient
  let lead := d.exponent + ds.length - 1
  if layout.leastPositional ≤ lead ∧ lead ≤ layout.mostPositional then positional ds lead
  else layout.scientific ds lead

end Layout

def finiteText (negative : Bool) (units : Nat) : List Char :=
  let magnitude := Layout.standard.text (Decimal.shortest units)
  if negative then '-' :: magnitude else magnitude

end SchemaForge.Numeric
