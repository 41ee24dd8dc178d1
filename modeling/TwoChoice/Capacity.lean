import TwoChoice.Fault
import TwoChoice.Word

/-!
# Capacities

A capacity is a number of groups: a power of two, at least eight and below `2 ^ 64`.

## Main Definitions

* `Capacity.minimum` — the capacity of a new table
* `Capacity.atLeast` — the least power of two that is not below a number
* `Capacity.ofGroups` — the capacity of a table asked to have so many groups
* `Capacity.doublings` — the capacities that growth can reach, in increasing order
-/

namespace TwoChoice.Capacity

/-- The number of groups in a new table, and the least number in any table. -/
def minimum : Nat := 8

/-- The least power of two that is not below `n`. -/
def atLeast (n : Nat) : Nat :=
  if n ≤ 1 then 1 else 1 <<< ((n - 1).log2 + 1)

/-- The capacity of a table that is to have at least `groups` groups. -/
def ofGroups (groups : Nat) : Except Fault Nat :=
  let capacity := atLeast (max groups minimum)
  if capacity < Word.limit then .ok capacity else .error .capacityOverflow

/-- The doubles of a capacity, its fourfold and so on, as far as they fit in 64 bits. -/
def doublings (capacity : Nat) : List Nat :=
  (List.range (63 - capacity.log2)).map fun j => capacity <<< (j + 1)

/-- What growth can reach from a positive capacity is greater than it and fits in 64 bits. -/
theorem lt_of_mem_doublings {capacity larger : Nat} (positive : 0 < capacity)
    (mem : larger ∈ doublings capacity) : capacity < larger ∧ larger < Word.limit := by
  obtain ⟨j, inRange, rfl⟩ := List.mem_map.mp mem
  have bound : j + 1 ≤ 63 - capacity.log2 := List.mem_range.mp inRange
  rw [Nat.shiftLeft_eq]
  constructor
  · have double : 2 ≤ 2 ^ (j + 1) := by
      rw [Nat.pow_succ]
      have := Nat.two_pow_pos j
      omega
    calc
      capacity < capacity * 2 := by omega
      _ ≤ capacity * 2 ^ (j + 1) := Nat.mul_le_mul_left _ double
  · have below : capacity < 2 ^ (capacity.log2 + 1) := Nat.lt_log2_self
    calc
      capacity * 2 ^ (j + 1) < 2 ^ (capacity.log2 + 1) * 2 ^ (j + 1) :=
        Nat.mul_lt_mul_of_pos_right below (Nat.two_pow_pos _)
      _ = 2 ^ (capacity.log2 + 1 + (j + 1)) := (Nat.pow_add _ _ _).symm
      _ ≤ 2 ^ 64 := Nat.pow_le_pow_right (by decide) (by omega)

end TwoChoice.Capacity
