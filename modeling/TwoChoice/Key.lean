import TwoChoice.Integer

/-!
# Keys

A key type sets one of its values aside to mark vacant slots, and gives every key a 64-bit
pattern to hash.

## Main Definitions

* `Key` — a type whose values can be keys
* `ZeroVacant` — integers that mark vacancy by zero

## Design Notes

The integers of a format mark vacancy by their greatest number. A type that wants another
number for it wraps the integers and has an instance of its own.
-/

namespace TwoChoice

universe u

/-- A type whose values can be keys of a table. -/
class Key (K : Type u) where
  /-- The value that marks vacant slots. It is never the key of an entry. -/
  vacant : K
  /-- The pattern from which a key is hashed. -/
  bits : K → UInt64

/-- Integers mark vacancy by their greatest number. -/
instance (f : IntFormat) : Key (FixedInt f) where
  vacant := FixedInt.greatest f
  bits := FixedInt.bits

/-- Unsigned 32-bit integers that mark vacancy by zero. -/
structure ZeroVacant where
  /-- The number itself. -/
  val : UInt32
  deriving DecidableEq, Repr

instance : Key ZeroVacant where
  vacant := ⟨0⟩
  bits key := key.val.toUInt64

/-- A type with one value has only the mark of vacancy, so no entry can have it as its key. -/
instance : Key Unit where
  vacant := ()
  bits _ := 0

end TwoChoice
