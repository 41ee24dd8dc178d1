/-!
# Binary floating point numbers, exactly

The number that a 64-bit floating point pattern stands for, as an integer times a power of two.

## Main Definitions

* `Binary64` — a floating point number
* `Binary64.ofBits` — the number that a bit pattern stands for
-/

namespace TwoChoice

/-- A floating point number of 64 bits, read exactly. -/
inductive Binary64 where
  /-- The pattern stands for no number. -/
  | nan
  /-- Beyond all numbers, above or below. -/
  | infinity (negative : Bool)
  /-- The number `mantissa * 2 ^ exponent`, or its opposite. -/
  | finite (negative : Bool) (mantissa : Nat) (exponent : Int)
  deriving DecidableEq, Repr

namespace Binary64

/-- Reads a bit pattern: a sign bit, 11 bits of exponent and 52 bits of fraction. The least
exponent marks fractions without a leading one, and the greatest marks what is no number. -/
def ofBits (bits : UInt64) : Binary64 :=
  let word := bits.toNat
  let negative := word.testBit 63
  let exponent := (word >>> 52) % 2048
  let fraction := word % 0x10000000000000
  if exponent = 2047 then if fraction = 0 then infinity negative else nan
  else if exponent = 0 then finite negative fraction (-1074)
  else finite negative (0x10000000000000 + fraction) ((exponent : Int) - 1075)

/-- Reads a floating point number. -/
def ofFloat (x : Float) : Binary64 :=
  ofBits x.toBits

end Binary64

end TwoChoice
