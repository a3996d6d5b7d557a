import Annealing.Decimal.Shortest

/-!
# Positional decimal text

Numbers are written with their shortest digits in positional notation of any
length: `1000000000000000000000`, `0.0000001`. There is never an exponent,
and no point where there is no fraction.
-/
namespace Annealing

namespace Decimal

/-- The digits of a number without zeros at their end. -/
def trimZeros (ds : List Char) : List Char :=
  (ds.reverse.dropWhile (· = '0')).reverse

/-- Positional text of a decimal: digits, then a point and a fraction unless
the fraction is zero. -/
def positional (d : Decimal) : List Char :=
  let ds := Nat.toDigits 10 d.digits
  match d.exponent with
  | .ofNat zeros => ds ++ List.replicate zeros '0'
  | .negSucc n =>
    let places := n + 1
    let padded := List.replicate (places + 1 - ds.length) '0' ++ ds
    let whole := padded.take (padded.length - places)
    match trimZeros (padded.drop (padded.length - places)) with
    | [] => whole
    | fraction => whole ++ '.' :: fraction

end Decimal

namespace Binary64

/-- The text of a datum. -/
def text (x : Binary64) : String :=
  if x.isNaN then "NaN"
  else
    let magnitude :=
      if x.isFinite then String.ofList (Decimal.ofBinary64 x).positional else "inf"
    if x.isNegative then "-" ++ magnitude else magnitude

end Binary64

/-- The text of a number. -/
def decimalText (x : Float) : String := (Binary64.ofFloat x).text

example : decimalText 0.1 = "0.1" ∧ decimalText 1e21 = "1000000000000000000000" ∧
    decimalText (-0.0) = "-0" ∧ decimalText 4.3 = "4.3" := by decide +kernel

end Annealing
