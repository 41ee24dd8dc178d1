import TwoChoice.Fault

/-!
# Sizes in 64 bits

Arithmetic on sizes and counts that must stay below `2 ^ 64`. The numbers themselves are
natural numbers; an operation whose result does not fit breaches its condition and yields no
number.

## Main Definitions

* `Word.limit` — the first number that does not fit
* `Word.add`, `Word.mul`, `Word.sub` — checked arithmetic
-/

namespace TwoChoice.Word

/-- The first natural number that does not fit in 64 bits. -/
def limit : Nat := 1 <<< 64

/-- The sum of two sizes, if it fits. -/
def add (a b : Nat) : Except Fault Nat :=
  if a + b < limit then .ok (a + b) else .error (.breach .wordSum)

/-- The product of two sizes, if it fits. -/
def mul (a b : Nat) : Except Fault Nat :=
  if a * b < limit then .ok (a * b) else .error (.breach .wordProduct)

/-- The difference of two sizes, if it is not negative. -/
def sub (a b : Nat) : Except Fault Nat :=
  if b ≤ a then .ok (a - b) else .error (.breach .wordDifference)

/-- The sum of a list of sizes, if every partial sum fits. -/
def sum (sizes : List Nat) : Except Fault Nat :=
  sizes.foldlM add 0

theorem add_of_lt {a b : Nat} (fits : a + b < limit) : add a b = .ok (a + b) :=
  if_pos fits

theorem mul_of_lt {a b : Nat} (fits : a * b < limit) : mul a b = .ok (a * b) :=
  if_pos fits

theorem sub_of_le {a b : Nat} (le : b ≤ a) : sub a b = .ok (a - b) :=
  if_pos le

end TwoChoice.Word
