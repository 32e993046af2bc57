import CellMachine.Binary64.Basic
import CellMachine.Decimal

/-!
The text of a double. Among the decimals that read back as the same number the
text has the coarsest last place, and among those the one nearest the number; of
two equally near the larger magnitude is taken.

A decimal reads back as a finite number when it lies in the number's rounding
interval: from half the gap below to half the gap above, ends included exactly
when the significand is even. All comparisons are cross-multiplied, so they are
exact in the natural numbers.
-/

namespace CellMachine.Binary64

/-- With `scaled x e` and `units x e`, the magnitude of `x` measured in units of
`10 ^ e` is the fraction `significand · scaled / units`. -/
def scaled (x : Binary64) (exponent : Int) : Nat :=
  Nat.pow 2 x.scale.toNat * Nat.pow 10 (-exponent).toNat

@[inherit_doc scaled]
def units (x : Binary64) (exponent : Int) : Nat :=
  Nat.pow 2 (-x.scale).toNat * Nat.pow 10 exponent.toNat

/-- The decimal lies in the rounding interval of the magnitude of `x`. Distances
are counted in quarters of a unit of the significand. -/
def covers (x : Binary64) (d : Decimal) : Bool :=
  let point := 4 * d.digits * x.units d.exponent
  let low := (4 * x.significand - if x.hasNarrowGapBelow then 1 else 2) * x.scaled d.exponent
  let high := (4 * x.significand + 2) * x.scaled d.exponent
  if x.significand % 2 = 0 then
    decide (low ≤ point) && decide (point ≤ high)
  else
    decide (low < point) && decide (point < high)

/-- The multiple of `10 ^ exponent` in the rounding interval that is nearest to
the magnitude of `x`. It is one of the two multiples around the magnitude. -/
def nearestOn? (x : Binary64) (exponent : Int) : Option Decimal :=
  let numerator := x.significand * x.scaled exponent
  let denominator := x.units exponent
  let below : Decimal := ⟨numerator / denominator, exponent⟩
  let above : Decimal := ⟨numerator / denominator + 1, exponent⟩
  match x.covers below, x.covers above with
  | true, true =>
      some (if 2 * (numerator % denominator) < denominator then below else above)
  | true, false => some below
  | false, true => some above
  | false, false => none

/-- The magnitude of `x` itself. -/
def exactDecimal (x : Binary64) : Decimal :=
  if 0 ≤ x.scale then
    ⟨x.significand * Nat.pow 2 x.scale.toNat, 0⟩
  else
    ⟨x.significand * Nat.pow 5 (-x.scale).toNat, x.scale⟩

/-- Tries `count` powers of ten from `exponent` downwards. -/
def shortestFrom (x : Binary64) : Nat → Int → Decimal
  | 0, _ => x.exactDecimal
  | count + 1, exponent =>
      match x.nearestOn? exponent with
      | some d => d
      | none => x.shortestFrom count (exponent - 1)

/-- A power of ten of which no multiple but zero is as small as the magnitude of
`x`: the magnitude is below `2 ^ b`, which is below `10 ^ (b / 3 + 1)`, and for a
negative `b` below `10 ^ (b / 4)`, rounded up. -/
def coarsest (x : Binary64) : Int :=
  let bound := (Nat.log2 x.significand + 1 : Nat) + x.scale
  if 0 ≤ bound then bound / 3 + 1 else -(-bound / 4)

/-- The decimal with the coarsest last place that reads back as the magnitude of
`x`. The grid of the exact value is reached after `coarsest - scale` grids. -/
def shortest (x : Binary64) : Decimal :=
  if x.significand = 0 then
    ⟨0, 0⟩
  else
    x.shortestFrom (x.coarsest - min x.scale 0 + 1).toNat x.coarsest

/-- A text of the magnitude of `x` after the sign of `x`. -/
def signed (x : Binary64) (magnitude : String) : String :=
  if x.isNegative then "-" ++ magnitude else magnitude

/-- The text of a number, in which a whole number has no point. -/
def text (x : Binary64) : String :=
  if x.isNaN then
    "NaN"
  else
    x.signed (if x.isInfinite then "inf" else String.ofList x.shortest.positional)

end CellMachine.Binary64
