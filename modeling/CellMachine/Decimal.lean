/-!
Exact decimal numbers `digits · 10 ^ exponent` and their notations. Positional
notation has no exponent, and a point only where digits come behind it.
Scientific notation has one digit before the point and always an exponent.
-/

namespace CellMachine

structure Decimal where
  digits : Nat
  exponent : Int
deriving DecidableEq, Repr

namespace Decimal

/-- Sets the point before the last `places` digits, with leading zeros where
fewer than `places + 1` digits are given. -/
def withPoint (digits : List Char) (places : Nat) : List Char :=
  let padded := List.replicate (places + 1 - digits.length) '0' ++ digits
  padded.take (padded.length - places) ++ '.' :: padded.drop (padded.length - places)

def positional (d : Decimal) : List Char :=
  let digits := Nat.toDigits 10 d.digits
  if 0 ≤ d.exponent then
    digits ++ List.replicate d.exponent.toNat '0'
  else
    withPoint digits (-d.exponent).toNat

/-- The power of ten that the first digit stands for. -/
def leading (d : Decimal) : Int := d.exponent + (Nat.toDigits 10 d.digits).length - 1

def scientific (d : Decimal) : List Char :=
  let digits := Nat.toDigits 10 d.digits
  let behind := digits.drop 1
  digits.take 1 ++ (if behind.isEmpty then [] else '.' :: behind) ++
    'e' :: (toString d.leading).toList

end Decimal

end CellMachine
