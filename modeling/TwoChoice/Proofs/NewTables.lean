import TwoChoice.Proofs.Arrangement
import TwoChoice.Proofs.Clearing

/-!
# New tables

A new table has the least capacity that is not below the number of groups asked for. The number is
tested first: if there is no such capacity in 64 bits, there is no table. Then the bytes are: if the
groups of that capacity do not fit one allocation, there is no table either. The two tests decide
everything, so whether a table can be made, and which, is known from the number of groups and the
size of one group.

## Main Definitions

* `Capacity.LeastFor` — the capacity for a number of groups
* `Table.IsNew` — an empty table of some capacity
* `Table.MakesTables` — which tables can be made

## Main Statements

* `Capacity.atLeast_lt_limit_iff` — for which numbers of groups there is a capacity
* `Table.withGroups_eq` — how making a table ends
* `Table.withGroups_outcomes` — which tables can be made, whatever their keys and values are
-/

namespace TwoChoice

universe u v

/-! ### Capacities -/

namespace Capacity

variable {n m groups capacity : Nat}

/-- The least power of two that is below neither the number of groups asked for nor the least
capacity. -/
def LeastFor (groups capacity : Nat) : Prop :=
  IsLeast {c | c.isPowerOfTwo ∧ max groups minimum ≤ c} capacity

theorem isLeast_atLeast (n : Nat) : IsLeast {c | c.isPowerOfTwo ∧ n ≤ c} (atLeast n) := by
  refine ⟨⟨isPowerOfTwo_atLeast n, le_atLeast n⟩, ?_⟩
  rintro c ⟨⟨k, rfl⟩, le⟩
  exact atLeast_le le

theorem leastFor_iff : LeastFor groups capacity ↔ capacity = atLeast (max groups minimum) := by
  have least : LeastFor groups (atLeast (max groups minimum)) := isLeast_atLeast _
  exact ⟨fun least' => least'.unique least, fun same => same ▸ least⟩

theorem atLeast_mono (le : n ≤ m) : atLeast n ≤ atLeast m :=
  (isLeast_atLeast n).2 ⟨isPowerOfTwo_atLeast m, le.trans (le_atLeast m)⟩

/-- Rounding up to a power of two less than doubles a number. -/
theorem atLeast_lt_two_mul (positive : 0 < n) : atLeast n < 2 * n := by
  unfold atLeast
  split
  · omega
  · have below : 2 ^ (n - 1).log2 ≤ n - 1 := Nat.log2_self_le (by omega)
    rw [Nat.one_shiftLeft, Nat.pow_succ]
    omega

/-- Powers of two up to `2 ^ 63` fit in 64 bits, and no others do. -/
theorem atLeast_lt_limit_iff : atLeast n < Word.limit ↔ n ≤ 2 ^ 63 := by
  constructor
  · intro below
    obtain ⟨k, eq⟩ := isPowerOfTwo_atLeast n
    rw [eq] at below
    have k_lt : k < 64 := (Nat.pow_lt_pow_iff_right (a := 2) (by decide)).mp below
    calc n ≤ 2 ^ k := eq ▸ le_atLeast n
      _ ≤ 2 ^ 63 := Nat.pow_le_pow_right (by decide) (by omega)
  · intro le
    exact (atLeast_le le).trans_lt (by decide)

/-- There is a capacity for a number of groups exactly up to `2 ^ 63`. -/
theorem ofGroups_eq (groups : Nat) : ofGroups groups =
    if groups ≤ 2 ^ 63 then .ok (atLeast (max groups minimum)) else .error .capacityOverflow := by
  have small : minimum ≤ 2 ^ 63 := by decide
  have bound : max groups minimum ≤ 2 ^ 63 ↔ groups ≤ 2 ^ 63 := by omega
  simp only [ofGroups, atLeast_lt_limit_iff, bound]

end Capacity

/-! ### Tables -/

namespace Table

variable {K : Type u} {V : Type v} {slots : Nat} [Key K] [DecidableEq K] {s : Scheme K}
variable {t t' : Table K V slots} {groups more capacity : Nat}

omit [DecidableEq K] in
/-- Making a table fails for want of a capacity or of an allocation, in this order. Otherwise all
groups of the table are empty. -/
theorem withGroups_eq (s : Scheme K) (groups : Nat) :
    (withGroups s groups : Except Fault (Table K V slots)) =
      if groups ≤ 2 ^ 63 then
        if s.layout.Fits slots (Capacity.atLeast (max groups Capacity.minimum)) then
          .ok (empty (Capacity.atLeast (max groups Capacity.minimum)))
        else .error .layoutOverflow
      else .error .capacityOverflow := by
  rw [withGroups, Capacity.ofGroups_eq]
  by_cases few : groups ≤ 2 ^ 63
  · rw [if_pos few, if_pos few]
    show allocate s.layout _ = _
    rw [allocate, if_neg (not_not.mpr (Capacity.isPowerOfTwo_atLeast _)), ite_not]
  · rw [if_neg few, if_neg few]
    rfl

omit [DecidableEq K] in
/-- A table is made exactly if there is a capacity for it whose groups fit one allocation. -/
theorem withGroups_eq_ok_iff : withGroups s groups = .ok t ↔
    groups ≤ 2 ^ 63 ∧ s.layout.Fits slots (Capacity.atLeast (max groups Capacity.minimum)) ∧
      t = empty (Capacity.atLeast (max groups Capacity.minimum)) := by
  rw [withGroups_eq]
  by_cases few : groups ≤ 2 ^ 63
  · rw [if_pos few, and_iff_right few]
    by_cases fits : s.layout.Fits slots (Capacity.atLeast (max groups Capacity.minimum))
    · simp only [fits, if_true, Except.ok.injEq, true_and, eq_comm]
    · simp only [fits, if_false, reduceCtorEq, false_and]
  · simp only [few, if_false, reduceCtorEq, false_and]

/-- An empty table with so many groups. -/
structure IsNew (s : Scheme K) (capacity : Nat) (t : Table K V slots) : Prop where
  /-- It has so many groups. -/
  capacity_eq : t.capacity = capacity
  /-- Its mask is one less. -/
  mask_eq : t.mask.toNat = capacity - 1
  /-- Its size is zero. -/
  size_eq : t.size = 0
  /-- It has no entries. -/
  toList_eq : t.toList = []
  /-- It is well-formed. -/
  wellFormed : t.WellFormed s

theorem isNew_empty (s : Scheme K) (usable : Capacity.Usable capacity) :
    IsNew s capacity (empty capacity : Table K V slots) := by
  have wellFormed : (empty capacity : Table K V slots).WellFormed s :=
    wellFormed_empty_of_usable s usable
  have capacity_eq : (empty capacity : Table K V slots).capacity = capacity :=
    capacity_empty capacity
  have mask_succ := wellFormed.mask_succ
  exact ⟨capacity_eq, by omega, rfl, toList_empty capacity, wellFormed⟩

/-- Which tables with values of one type and groups of one width can be made. -/
structure MakesTables (s : Scheme K) (V : Type v) (slots : Nat) : Prop where
  /-- There is no capacity for more than `2 ^ 63` groups. -/
  tooMany : ∀ groups, (withGroups s groups : Except Fault (Table K V slots)).mapError
    Fault.message = .error "capacity overflow" ↔ 2 ^ 63 < groups
  /-- Up to there a capacity and the bytes of its groups can be told. -/
  measured : ∀ groups, ∃ capacity bytes, Capacity.LeastFor groups capacity ∧
    s.layout.Pads slots capacity bytes
  /-- There is no allocation of more than `2 ^ 63 - 1` bytes. -/
  tooLarge : ∀ groups capacity bytes, groups ≤ 2 ^ 63 → Capacity.LeastFor groups capacity →
    s.layout.Pads slots capacity bytes →
      ((withGroups s groups : Except Fault (Table K V slots)).mapError Fault.message =
        .error "allocation size overflow: LayoutError" ↔ 2 ^ 63 - 1 < bytes)
  /-- Otherwise there is an empty table of the capacity. -/
  made : ∀ groups capacity bytes, groups ≤ 2 ^ 63 → Capacity.LeastFor groups capacity →
    s.layout.Pads slots capacity bytes → bytes ≤ 2 ^ 63 - 1 →
      ∃ t : Table K V slots, withGroups s groups = .ok t ∧ t.IsNew s capacity
  /-- Where a table with more groups can be made, so can one with fewer. -/
  downward : ∀ groups more, groups ≤ more →
    (∃ t : Table K V slots, withGroups s more = .ok t) →
      ∃ t : Table K V slots, withGroups s groups = .ok t
  /-- It has no greater capacity. -/
  capacity_le : ∀ groups more, ∀ t t' : Table K V slots, groups ≤ more →
    withGroups s groups = .ok t → withGroups s more = .ok t' → t.capacity ≤ t'.capacity
  /-- The capacity is less than twice as large as it has to be. -/
  capacity_lt : ∀ groups, ∀ t : Table K V slots, withGroups s groups = .ok t →
    t.capacity < 2 * max groups Capacity.minimum

/-- A table of more than `2 ^ 63` groups has no capacity. For any other number of groups, the least
power of two that is large enough is the capacity, unless its groups fill cache lines of more than
`2 ^ 63 - 1` bytes together. Fewer groups can be had where more can, and have no greater
capacity. -/
theorem withGroups_outcomes (fine : s.layout.groupAlignment ≤ s.layout.target.cacheLine) :
    MakesTables s V slots := by
  constructor
  case tooMany =>
    intro groups
    rw [withGroups_eq, ← Nat.not_le]
    by_cases few : groups ≤ 2 ^ 63
    · rw [if_pos few, iff_false_intro (not_not.mpr few)]
      split <;> simp [Except.mapError, Fault.message]
    · rw [if_neg few]
      exact iff_of_true rfl few
  case measured =>
    intro groups
    exact ⟨_, _, Capacity.leastFor_iff.mpr rfl, s.layout.pads_roundUp slots _⟩
  case tooLarge =>
    intro groups capacity bytes few least pads
    have fits_iff : s.layout.Fits slots capacity ↔ bytes ≤ 2 ^ 63 - 1 :=
      Layout.fits_iff fine pads
    rw [withGroups_eq, if_pos few, ← Capacity.leastFor_iff.mp least, ← Nat.not_le, ← fits_iff]
    by_cases fits : s.layout.Fits slots capacity
    · simp [fits, Except.mapError]
    · rw [if_neg fits]
      exact iff_of_true rfl fits
  case made =>
    intro groups capacity bytes few least pads fits
    obtain rfl := Capacity.leastFor_iff.mp least
    refine ⟨_, withGroups_eq_ok_iff.mpr ⟨few, (Layout.fits_iff fine pads).mpr fits, rfl⟩, ?_⟩
    apply isNew_empty
    exact Capacity.usable_of_ofGroups (by rw [Capacity.ofGroups_eq, if_pos few])
  case downward =>
    rintro groups more le ⟨t, made⟩
    obtain ⟨few, fits, -⟩ := withGroups_eq_ok_iff.mp made
    refine ⟨_, withGroups_eq_ok_iff.mpr ⟨le.trans few, fits.mono ?_, rfl⟩⟩
    exact Capacity.atLeast_mono (max_le_max_right _ le)
  case capacity_le =>
    intro groups more t t' le made made'
    obtain ⟨-, -, rfl⟩ := withGroups_eq_ok_iff.mp made
    obtain ⟨-, -, rfl⟩ := withGroups_eq_ok_iff.mp made'
    rw [capacity_empty, capacity_empty]
    exact Capacity.atLeast_mono (max_le_max_right _ le)
  case capacity_lt =>
    intro groups t made
    obtain ⟨-, -, rfl⟩ := withGroups_eq_ok_iff.mp made
    rw [capacity_empty]
    exact Capacity.atLeast_lt_two_mul ((by decide : 0 < Capacity.minimum).trans_le
      (Nat.le_max_right ..))

/-- Groups of 48 bytes can be had up to `2 ^ 57` of them. One more calls for twice as many, which no
allocation has room for, and of more than `2 ^ 63` no capacity is left. -/
theorem withGroups_outcomes_largest :
    Scheme.ofWords.layout.groupAlignment ≤ Scheme.ofWords.layout.target.cacheLine ∧
      Scheme.ofWords.layout.groupBytes 4 = 48 ∧
      (∃ t : Table ZeroVacant UInt64 4, withGroups Scheme.ofWords (2 ^ 57) = .ok t ∧
        t.IsNew Scheme.ofWords (2 ^ 57)) ∧
      (withGroups Scheme.ofWords (2 ^ 57 + 1) : Except Fault (Table ZeroVacant UInt64 4)).mapError
        Fault.message = .error "allocation size overflow: LayoutError" ∧
      (withGroups Scheme.ofWords (2 ^ 63 + 1) : Except Fault (Table ZeroVacant UInt64 4)).mapError
        Fault.message = .error "capacity overflow" := by
  have fine : Scheme.ofWords.layout.groupAlignment ≤ Scheme.ofWords.layout.target.cacheLine := by
    decide
  have outcomes : MakesTables Scheme.ofWords UInt64 4 := withGroups_outcomes fine
  have least : Capacity.LeastFor (2 ^ 57) (2 ^ 57) :=
    Capacity.leastFor_iff.mpr (by decide +kernel)
  have least' : Capacity.LeastFor (2 ^ 57 + 1) (2 ^ 58) :=
    Capacity.leastFor_iff.mpr (by decide +kernel)
  refine ⟨fine, by decide, ?_, ?_, ?_⟩
  · exact outcomes.made _ _ _ (by decide) least (Layout.pads_roundUp ..) (by decide)
  · exact (outcomes.tooLarge _ _ _ (by decide) least' (Layout.pads_roundUp ..)).mpr (by decide)
  · exact (outcomes.tooMany _).mpr (by decide)

end Table

end TwoChoice
