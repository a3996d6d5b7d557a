import Annealing.Decimal.Binary64

/-!
# The fewest digits that read back

A decimal is read as the nearest binary64 number, so every finite datum is
surrounded by an interval of reals that are read as that datum. `shortest`
takes the decimal with the fewest digits in this interval, and the nearest one
where several have the same number of digits; of two equally near it takes
the larger magnitude. All comparisons are made between exact integers.
-/
namespace Annealing

/-- The decimal number `digits · 10 ^ exponent`. -/
structure Decimal where
  digits : Nat
  exponent : Int
  deriving DecidableEq, Repr

namespace Decimal

/-- The number of decimal digits of a natural number; zero has one. -/
def digitCount (n : Nat) : Nat := (Nat.toDigits 10 n).length

/-- The exponent of the leading decimal digit of the fraction `a / b`, for
positive `a` and `b`. -/
def leadingExponent (a b : Nat) : Int :=
  let estimate : Int := (digitCount a : Int) - digitCount b
  if b * Nat.pow 10 estimate.toNat ≤ a * Nat.pow 10 (-estimate).toNat then estimate
  else estimate - 1

/-- The reals around a positive number that are read as this number. The
bounds and the number itself are `lower`, `middle` and `upper` times
`scale / divisor`; `closed` tells whether the bounds belong to them. -/
structure Interval where
  lower : Nat
  middle : Nat
  upper : Nat
  scale : Nat
  divisor : Nat
  closed : Bool
  deriving DecidableEq, Repr

namespace Interval

/-- The interval of a positive finite datum, counted in quarters of the
distance to the next larger number. Below a power of two the neighbour is
twice as near; a bound is read as the number with the even significand. -/
def ofBinary64 (x : Binary64) : Interval :=
  let m := x.significand
  let nearBelow := x.fractionField == 0 && 1 < x.exponentField
  { lower := 4 * m - (if nearBelow then 1 else 2)
    middle := 4 * m
    upper := 4 * m + 2
    scale := Nat.pow 2 (x.exponent - 2).toNat
    divisor := Nat.pow 2 (2 - x.exponent).toNat
    closed := m % 2 == 0 }

/-- Whether the decimal `digits · 10 ^ exponent` lies in the interval. -/
def contains (i : Interval) (d : Decimal) : Bool :=
  let point := d.digits * Nat.pow 10 d.exponent.toNat * i.divisor
  let low := i.lower * i.scale * Nat.pow 10 (-d.exponent).toNat
  let high := i.upper * i.scale * Nat.pow 10 (-d.exponent).toNat
  if i.closed then low ≤ point && point ≤ high else low < point && point < high

/-- The decimal in the interval that is nearest to the middle among those with
the given exponent, of two equally near ones the larger. -/
def nearest? (i : Interval) (exponent : Int) : Option Decimal :=
  let unit := Nat.pow 10 exponent.toNat * i.divisor
  let middle := i.middle * i.scale * Nat.pow 10 (-exponent).toNat
  let below : Decimal := ⟨middle / unit, exponent⟩
  let above : Decimal := ⟨middle / unit + 1, exponent⟩
  match i.contains below, i.contains above with
  | true, true => if 2 * (middle % unit) < unit then some below else some above
  | true, false => some below
  | false, true => some above
  | false, false => none

/-- The shortest decimal of the interval. Seventeen digits always suffice. -/
def shortest (i : Interval) : Decimal :=
  let lead := leadingExponent (i.middle * i.scale) i.divisor
  let found := (List.range 17).findSome? fun (more : Nat) => i.nearest? (lead - more)
  found.getD ⟨i.middle * i.scale / i.divisor, 0⟩

end Interval

/-- The shortest decimal that is read as the magnitude of a finite datum. -/
def ofBinary64 (x : Binary64) : Decimal :=
  if x.significand = 0 then ⟨0, 0⟩ else (Interval.ofBinary64 x).shortest

/-- A tie between two shortest decimals goes to the larger magnitude. -/
example : ofBinary64 (.ofFloat (1 / 33554432)) = ⟨29802322387695313, -24⟩ := by decide +kernel

end Decimal
end Annealing
