import TwoChoice.Proofs.Lockstep

/-!
# Clearing

Clearing a table vacates its slots and leaves their values where they are. So does the shift that
closes the gap of an entry taken out, in the last slot of a group. Such values are never seen again:
a cleared table answers every run of calls as a new table of its capacity does.

## Main Statements

* `Table.withGroups_capacity` — a table with as many groups as a reachable one can be made
* `Table.WellFormed.parallel_clear` — a cleared table is parallel to an empty one
* `Table.Reachable.run_clear_eq` — no run tells a cleared table from a new one
-/

namespace TwoChoice

universe u v w

namespace Capacity

variable {n capacity : Nat}

/-- No power of two that is large enough is less than the capacity asked for. -/
theorem atLeast_le {k : Nat} (le : n ≤ 2 ^ k) : atLeast n ≤ 2 ^ k := by
  unfold atLeast
  split
  · exact Nat.one_le_two_pow
  · have bound : (n - 1).log2 < k := (Nat.log2_lt (by omega)).mpr (by omega)
    rw [Nat.one_shiftLeft]
    exact Nat.pow_le_pow_right (by decide) bound

/-- A usable number of groups is the capacity of the table that is asked to have so many. -/
theorem Usable.ofGroups_eq (usable : Usable capacity) : ofGroups capacity = .ok capacity := by
  have atLeast_eq : atLeast capacity = capacity := by
    obtain ⟨k, rfl⟩ := usable.isPowerOfTwo
    exact Nat.le_antisymm (atLeast_le (Nat.le_refl _)) (le_atLeast _)
  simp only [ofGroups, Nat.max_eq_left usable.minimum_le, atLeast_eq, if_pos usable.lt_limit]

end Capacity

variable {K : Type u} {V : Type v} {slots : Nat} {A : Type w} [Key K] [DecidableEq K]

namespace Table

variable {s : Scheme K} {t : Table K V slots}

/-- A table with as many groups as a reachable one can be made, and has just as many. -/
theorem Reachable.withGroups_capacity (reachable : Reachable s t) :
    (withGroups s t.capacity : Except Fault (Table K V slots)) = .ok (empty t.capacity) := by
  rw [withGroups, reachable.usable.ofGroups_eq]
  exact reachable.allocate_eq

/-- A cleared table differs from an empty one only in what its vacant slots were left with. -/
theorem WellFormed.parallel_clear (wellFormed : t.WellFormed s) :
    t.clear.Parallel Eq Eq (empty t.capacity) where
  groups_size_eq := by simp [Table.clear, empty, Table.capacity]
  group i inRange inRange' := by
    simp only [Table.clear, empty, Array.getElem_map, Array.getElem_replicate]
    -- An empty group is itself one that was reset.
    exact Group.parallel_reset _ Group.empty
  mask_eq := by
    have mask_eq : t.mask.toNat = t.capacity - 1 := by
      have mask_succ := wellFormed.mask_succ
      omega
    show t.mask = UInt64.ofNat (t.capacity - 1)
    rw [← mask_eq, UInt64.ofNat_toNat]
  size_eq := rfl

/-- A cleared table answers every run as a new table of its capacity does. In general, no run that
starts from a table depends on the values that are left behind in its vacant slots. -/
theorem Reachable.run_clear_eq (reachable : Reachable s t) (acc : Accumulation V A)
    (calls : List (Call K V)) :
    (∃ fresh : Table K V slots, withGroups s t.capacity = .ok fresh ∧
        (Call.run s acc calls t.clear).1 = (Call.run s acc calls fresh).1) ∧
      ∀ t' : Table K V slots, t.Parallel Eq Eq t' →
        (Call.run s acc calls t).1 = (Call.run s acc calls t').1 :=
  ⟨⟨_, reachable.withGroups_capacity, reachable.wellFormed.parallel_clear.run_eq acc calls⟩,
    fun _ parallel => parallel.run_eq acc calls⟩

/-- A table that has stored a key twice and taken one of its entries out. -/
def littered : Table ZeroVacant UInt64 2 :=
  (Operation.run Scheme.ofWords Accumulation.listing
    [.insert ⟨1⟩ 10, .insert ⟨1⟩ 11, .insert ⟨2⟩ 20, .erase ⟨1⟩] ⟨empty 8, 0⟩).2.table

/-- Calls that store another key and look for those that were stored before. -/
def reusingCalls : List (Call ZeroVacant UInt64) :=
  [⟨.insert ⟨3⟩ 30, 0⟩, ⟨.get ⟨1⟩, 0⟩, ⟨.total, 1⟩, ⟨.erase ⟨3⟩, 1⟩, ⟨.describe, 1⟩, ⟨.grow, 1⟩,
    ⟨.findUnchecked ⟨2⟩, 1⟩]

/-- A cleared table still has values in its slots, and yet nothing is seen of them. -/
theorem run_clear_eq_littered :
    Reachable Scheme.ofWords littered ∧
      (∃ g ∈ littered.clear.groups, ∃ value ∈ g.values, value.isSome) ∧
      ∃ fresh : Table ZeroVacant UInt64 2,
        withGroups Scheme.ofWords littered.capacity = .ok fresh ∧
          (Call.run Scheme.ofWords Accumulation.wrapping reusingCalls littered.clear).1 =
            (Call.run Scheme.ofWords Accumulation.wrapping reusingCalls fresh).1 := by
  have made : (withGroups Scheme.ofWords 8 : Except Fault (Table ZeroVacant UInt64 2)) =
      .ok (empty 8) := withGroups_eq_of_le (by decide) (by decide)
  have reachable : Reachable Scheme.ofWords littered :=
    Reachable.run Accumulation.listing (Reachable.made made) (by simp [Operation.Legal])
  exact ⟨reachable, by decide +kernel, (reachable.run_clear_eq Accumulation.wrapping _).1⟩

end Table

end TwoChoice
