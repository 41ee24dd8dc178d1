import Mathlib.Tactic.ByContra
import TwoChoice.Counted
import TwoChoice.Word

/-!
# Charging comparisons

A lookup makes some number of comparisons and then has a result. Both are fixed by the table and the
key; the counter has a say only if it cannot take so many comparisons more. `Counted.charge` is that
dependence and nothing else, so that a scan can be described by its cost and its result alone.

## Main Definitions

* `Counted.charge` — a result after so many comparisons, counted on a given counter

## Main Statements

* `Counted.charge_add` — comparisons that fit the counter can be charged first
* `Counted.charge_of_full`, `Counted.charge_of_next_full` — a counter that is full, or is after one
  more comparison, stops where it is full
-/

namespace TwoChoice.Counted

universe u v

variable {α : Type u} {β : Type v} {result : Except Fault α} {counter : UInt64} {cost : Nat}

/-- The result of a lookup that makes `cost` comparisons. If the counter cannot take all of them,
the lookup fails as soon as the counter is full. -/
def charge (cost : Nat) (result : Except Fault α) (counter : UInt64) : Counted α :=
  if counter.toNat + cost < Word.limit then ⟨result, counter + UInt64.ofNat cost⟩
  else ⟨.error .counterOverflow, fullCounter⟩

/-! ### Counters -/

/-- A counter admits a comparison unless it is full. -/
theorem ne_fullCounter_iff : counter ≠ fullCounter ↔ counter.toNat + 1 < Word.limit := by
  have bound : counter.toNat < 2 ^ 64 := counter.toNat_lt
  have full : fullCounter.toNat = 2 ^ 64 - 1 := rfl
  rw [Ne, ← UInt64.toNat_inj, full]
  show _ ↔ counter.toNat + 1 < 2 ^ 64
  omega

/-- Counting does not wrap around as long as the counter is not full. -/
theorem toNat_add (fits : counter.toNat + cost < Word.limit) :
    (counter + UInt64.ofNat cost).toNat = counter.toNat + cost := by
  have fits' : counter.toNat + cost < 2 ^ 64 := fits
  rw [UInt64.toNat_add, UInt64.toNat_ofNat', Nat.mod_eq_of_lt (a := cost) (by omega),
    Nat.mod_eq_of_lt fits']

/-! ### Charges -/

theorem charge_of_lt (fits : counter.toNat + cost < Word.limit) :
    charge cost result counter = ⟨result, counter + UInt64.ofNat cost⟩ :=
  if_pos fits

theorem charge_of_not_lt (overflows : ¬counter.toNat + cost < Word.limit) :
    charge cost result counter = ⟨.error .counterOverflow, fullCounter⟩ :=
  if_neg overflows

@[simp] theorem charge_zero : charge 0 result counter = ⟨result, counter⟩ := by
  rw [charge_of_lt counter.toNat_lt]
  simp

/-- Counted from zero, comparisons can be charged as long as their number fits in 64 bits. -/
theorem charge_from_zero (fits : cost < Word.limit) :
    charge cost result 0 = ⟨result, UInt64.ofNat cost⟩ := by
  rw [charge_of_lt (by rwa [UInt64.toNat_zero, Nat.zero_add]), UInt64.zero_add]

/-- Comparisons that fit the counter can be charged before the others. -/
theorem charge_add {made : Nat} (fits : counter.toNat + made < Word.limit) (cost : Nat) :
    charge (made + cost) result counter =
      charge cost result (counter + UInt64.ofNat made) := by
  have moved := toNat_add fits
  unfold charge
  rw [moved, ← Nat.add_assoc, UInt64.ofNat_add, UInt64.add_assoc]

/-- On a full counter nothing can be charged. -/
theorem charge_of_full (full : counter = fullCounter) (positive : 0 < cost) :
    charge cost result counter = ⟨.error .counterOverflow, counter⟩ := by
  have noRoom := mt ne_fullCounter_iff.mpr (not_not.mpr full)
  rw [charge_of_not_lt (by omega), full]

/-- On a counter that is full after one comparison, no second one can be charged. -/
theorem charge_of_next_full (free : counter ≠ fullCounter) (full : counter + 1 = fullCounter)
    (two_le : 2 ≤ cost) :
    charge cost result counter = ⟨.error .counterOverflow, counter + 1⟩ := by
  obtain ⟨rest, rfl⟩ := Nat.exists_eq_add_of_le (Nat.le_of_lt two_le)
  rw [charge_add (ne_fullCounter_iff.mp free)]
  exact charge_of_full full (by omega)

/-- One comparison on a counter that admits it. -/
theorem charge_one (free : counter ≠ fullCounter) :
    charge 1 result counter = ⟨result, counter + 1⟩ :=
  charge_of_lt (ne_fullCounter_iff.mp free)

/-- Two comparisons on a counter that admits both. -/
theorem charge_two (free : counter ≠ fullCounter) (free' : counter + 1 ≠ fullCounter)
    (cost : Nat) :
    charge (2 + cost) result counter = charge cost result (counter + 2) := by
  have fits := ne_fullCounter_iff.mp free
  have fits' := ne_fullCounter_iff.mp free'
  have moved : (counter + 1).toNat = counter.toNat + 1 := toNat_add fits
  have fitsBoth : counter.toNat + 2 < Word.limit := by omega
  exact charge_add fitsBoth cost

/-- What follows a lookup follows its result. -/
theorem result_andThen (c : Counted α) (next : α → Except Fault β) :
    (c.andThen next).result = c.result.bind next := by
  unfold andThen
  cases c.result with
  | ok a => rfl
  | error fault => rfl

/-- What follows a lookup without comparing keys follows its result. -/
theorem andThen_charge (cost : Nat) (result : Except Fault α) (counter : UInt64)
    (next : α → Except Fault β) :
    (charge cost result counter).andThen next = charge cost (result.bind next) counter := by
  unfold charge
  split
  · cases result <;> rfl
  · rfl

end TwoChoice.Counted
