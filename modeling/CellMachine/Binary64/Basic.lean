/-!
Double-precision numbers in the binary interchange format, as their 64 bits.
A finite number is `± significand · 2 ^ scale`. Comparison follows the format's
rules and not its bits: a NaN differs from itself and the two zeros agree.
-/

namespace CellMachine

structure Binary64 where
  bits : UInt64
deriving DecidableEq, Repr

namespace Binary64

/-- The sign bit, which is also set on negative zero. -/
def isNegative (x : Binary64) : Bool := decide (0x8000000000000000 ≤ x.bits.toNat)

/-- The eleven exponent bits. -/
def exponentField (x : Binary64) : Nat := x.bits.toNat / 0x10000000000000 % 0x800

/-- The fifty-two fraction bits. -/
def fractionField (x : Binary64) : Nat := x.bits.toNat % 0x10000000000000

def isFinite (x : Binary64) : Bool := x.exponentField != 0x7ff

def isNaN (x : Binary64) : Bool := !x.isFinite && x.fractionField != 0

def isInfinite (x : Binary64) : Bool := !x.isFinite && x.fractionField == 0

def isZero (x : Binary64) : Bool := x.exponentField == 0 && x.fractionField == 0

/-- The quiet NaN with an empty payload. -/
def nan : Binary64 := ⟨0x7ff8000000000000⟩

/-- Numeric equality. -/
def equals (x y : Binary64) : Bool :=
  !x.isNaN && !y.isNaN && (x.bits == y.bits || x.isZero && y.isZero)

/-- The integer significand of a finite number, with the leading bit that is
not stored unless the number is subnormal. -/
def significand (x : Binary64) : Nat :=
  if x.exponentField = 0 then x.fractionField else 0x10000000000000 + x.fractionField

/-- The power of two that one unit of the significand stands for. -/
def scale (x : Binary64) : Int := (max 1 x.exponentField : Nat) - 1075

/-- What the significand of a finite number has behind the binary point, in its own
units. The number is whole when there is nothing. -/
def fraction (x : Binary64) : Nat := x.significand % Nat.pow 2 (-x.scale).toNat

/-- At a power of two the gap to the next smaller magnitude is half the gap to
the next larger one. The smallest normal number is the exception: below it the
subnormal numbers keep its spacing. -/
def hasNarrowGapBelow (x : Binary64) : Bool :=
  x.fractionField == 0 && decide (1 < x.exponentField)

theorem equals_self (x : Binary64) : x.equals x = !x.isNaN := by
  cases h : x.isNaN <;> simp [equals, h]

end Binary64

end CellMachine
