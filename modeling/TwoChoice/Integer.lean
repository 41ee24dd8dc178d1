/-!
# Integers of fixed width

Integers that fit a number of bits, signed or not. The number is kept as an integer and the
format bounds it, so that two formats can be compared through the numbers they share.

## Main Definitions

* `IntFormat` — a width and a sign convention
* `FixedInt` — the integers of a format
* `FixedInt.ofInt?` — the integer of a format equal to a given one, if there is one
-/

namespace TwoChoice

/-- How an integer is stored: in how many bits, and whether one of them is a sign. -/
structure IntFormat where
  /-- The number of bits. -/
  width : Nat
  /-- Whether negative numbers are included. -/
  signed : Bool
  deriving DecidableEq, Repr

namespace IntFormat

/-- Unsigned integers of the given width. -/
def unsigned (width : Nat) : IntFormat := ⟨width, false⟩

/-- Signed integers of the given width. -/
def twosComplement (width : Nat) : IntFormat := ⟨width, true⟩

/-- The least integer of a format. -/
def least (f : IntFormat) : Int :=
  if f.signed then -((1 <<< (f.width - 1) : Nat) : Int) else 0

/-- The greatest integer of a format. -/
def greatest (f : IntFormat) : Int :=
  if f.signed then ((1 <<< (f.width - 1) : Nat) : Int) - 1 else ((1 <<< f.width : Nat) : Int) - 1

theorem least_le_zero (f : IntFormat) : f.least ≤ 0 := by
  unfold least
  split
  · exact Int.neg_nonpos_of_nonneg (Int.natCast_nonneg _)
  · exact Int.le_refl 0

theorem zero_le_greatest (f : IntFormat) : 0 ≤ f.greatest := by
  have positive (n : Nat) : 0 < 1 <<< n := by
    rw [Nat.one_shiftLeft]
    exact Nat.two_pow_pos n
  have narrow := positive (f.width - 1)
  have wide := positive f.width
  unfold greatest
  split <;> omega

theorem least_le_greatest (f : IntFormat) : f.least ≤ f.greatest :=
  Int.le_trans f.least_le_zero f.zero_le_greatest

end IntFormat

/-- An integer that a format can store. -/
@[ext] structure FixedInt (f : IntFormat) where
  /-- The number itself. -/
  val : Int
  /-- The number is not too small. -/
  least_le : f.least ≤ val
  /-- The number is not too great. -/
  le_greatest : val ≤ f.greatest

namespace FixedInt

variable {f : IntFormat}

instance : DecidableEq (FixedInt f) := fun a b =>
  decidable_of_iff (a.val = b.val) FixedInt.ext_iff.symm

/-- The integer of the format equal to `z`, if `z` is in its range. -/
def ofInt? (f : IntFormat) (z : Int) : Option (FixedInt f) :=
  if inRange : f.least ≤ z ∧ z ≤ f.greatest then some ⟨z, inRange.1, inRange.2⟩ else none

/-- The greatest integer of a format, as an integer of that format. -/
def greatest (f : IntFormat) : FixedInt f :=
  ⟨f.greatest, f.least_le_greatest, Int.le_refl _⟩

/-- Zero, which every format has. -/
def zero (f : IntFormat) : FixedInt f :=
  ⟨0, f.least_le_zero, f.zero_le_greatest⟩

/-- The 64-bit two's complement pattern of the number: negative numbers are sign-extended. -/
def bits (a : FixedInt f) : UInt64 :=
  UInt64.ofInt a.val

theorem ofInt?_eq_some_iff {z : Int} {a : FixedInt f} : ofInt? f z = some a ↔ a.val = z := by
  unfold ofInt?
  by_cases fits : f.least ≤ z ∧ z ≤ f.greatest
  · rw [dif_pos fits, Option.some.injEq, FixedInt.ext_iff]
    exact eq_comm
  · rw [dif_neg fits]
    constructor
    · intro impossible
      cases impossible
    · intro val_eq
      subst val_eq
      exact absurd ⟨a.least_le, a.le_greatest⟩ fits

end FixedInt

end TwoChoice
