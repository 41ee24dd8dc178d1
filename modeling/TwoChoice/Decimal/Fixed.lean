import TwoChoice.Decimal.Binary64

/-!
# Decimals with a fixed number of places

A number is written with a given number of digits after the point. The exact number is rounded to
the nearest decimal of that many places, and a tie goes to the one whose last digit is even.

## Main Definitions

* `Decimal.roundHalfEven` — the integer nearest to a quotient
* `Decimal.placed` — an integer with a point set before its last digits
* `Decimal.fixed` — a floating point number with a fixed number of places
-/

namespace TwoChoice.Decimal

/-- The integer nearest to `numerator / denominator`, the even one of two that are equally
near. -/
def roundHalfEven (numerator denominator : Nat) : Nat :=
  let below := numerator / denominator
  let rest := 2 * (numerator % denominator)
  if rest < denominator ∨ (rest = denominator ∧ below % 2 = 0) then below else below + 1

/-- The decimal digits of `units`, with a point before the last `places` of them. There is at
least one digit before the point. -/
def placed (places units : Nat) : String :=
  let digits := (Nat.toDigits 10 units).leftpad (places + 1) '0'
  let whole := digits.take (digits.length - places)
  let fraction := digits.drop (digits.length - places)
  String.ofList (if places = 0 then whole else whole ++ '.' :: fraction)

/-- The sign in front of a number. -/
def sign (negative : Bool) : String :=
  if negative then "-" else ""

/-- A number with a fixed number of places. A negative number that rounds to zero keeps its
sign. -/
def fixed (places : Nat) : Binary64 → String
  | .nan => "NaN"
  | .infinity negative => sign negative ++ "inf"
  | .finite negative mantissa exponent =>
    let numerator := (mantissa * Nat.pow 10 places) <<< exponent.toNat
    let denominator := 1 <<< (-exponent).toNat
    sign negative ++ placed places (roundHalfEven numerator denominator)

end TwoChoice.Decimal
