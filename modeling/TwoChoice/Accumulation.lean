import TwoChoice.Fault
import TwoChoice.Integer

/-!
# Accumulations

Ways to add up the values of a table, one after another.

## Main Definitions

* `Accumulation` — a first total, and how a value is added to a total
* `Accumulation.run` — the total of a list of values
* `Accumulation.checked` — integers, as long as every partial sum is in range
* `Accumulation.wrapping`, `Accumulation.wrappingPairs` — words, modulo a power of two
* `Accumulation.floating` — binary floating point
* `Accumulation.listing` — the values themselves, in the order in which they are added
* `Accumulation.nothing` — values that carry no number
-/

namespace TwoChoice

universe u v

/-- How values are added up. Adding a value may leave the range of the totals. -/
structure Accumulation (V : Type u) (A : Type v) where
  /-- The total of no values. -/
  zero : A
  /-- The total with one more value, unless it is out of range. -/
  add : A → V → Option A

namespace Accumulation

variable {V : Type u} {A : Type v}

/-- A total with some more values, added one after another. -/
def addAll (acc : Accumulation V A) (total : A) : List V → Except Fault A
  | [] => .ok total
  | value :: rest =>
    match acc.add total value with
    | some total' => acc.addAll total' rest
    | none => .error .totalOverflow

/-- The total of some values, added one after another. -/
def run (acc : Accumulation V A) (values : List V) : Except Fault A :=
  acc.addAll acc.zero values

/-- Integers of a format, none of whose partial sums may leave the format. -/
def checked (f : IntFormat) : Accumulation (FixedInt f) (FixedInt f) where
  zero := FixedInt.zero f
  add total value := FixedInt.ofInt? f (total.val + value.val)

/-- Words of 64 bits, added modulo `2 ^ 64`. -/
def wrapping : Accumulation UInt64 UInt64 where
  zero := 0
  add total value := some (total + value)

/-- Pairs of words of 32 bits, each half added modulo `2 ^ 32`. -/
def wrappingPairs : Accumulation (UInt32 × UInt32) (UInt32 × UInt32) where
  zero := (0, 0)
  add total value := some (total.1 + value.1, total.2 + value.2)

/-- Floating point numbers, each sum rounded. The first total is positive zero. -/
def floating : Accumulation Float Float where
  zero := 0.0
  add total value := some (total + value)

/-- The values in the order in which they are added. -/
def listing : Accumulation V (Array V) where
  zero := #[]
  add total value := some (total.push value)

/-- Values that carry no number. -/
def nothing : Accumulation Unit Unit where
  zero := ()
  add _ _ := some ()

end Accumulation

end TwoChoice
