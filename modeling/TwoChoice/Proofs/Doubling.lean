import Mathlib.Algebra.Order.Group.Nat
import TwoChoice.Table.WellFormed

/-!
# Doubling a capacity

Growth goes through the doubles of a capacity. Three facts about them carry everything that is said
of growth: they are the greater powers of two below `2 ^ 64`, a capacity whose groups fit one
allocation stays allocatable when it is made smaller, and a group index under a double reduces to
the index under the capacity itself.

## Main Statements

* `Capacity.mem_doublings_iff` — the doubles of a capacity are the greater powers of two
* `Capacity.mem_doublings_iff_exists` — they are its products with powers of two
* `Layout.Fits.mono` — fewer groups fit where more of them do
* `Candidates.ofHash_capacity` — the candidates of a hash are remainders of its two parts
* `Table.WellFormed.first_mod`, `Table.WellFormed.second_mod` — candidates in a larger table reduce
  to the candidates in a smaller one
-/

namespace TwoChoice

universe u v

/-! ### Capacities -/

namespace Capacity

variable {capacity larger : Nat}

/-- The doubles of a power of two are the greater powers of two that fit in 64 bits. -/
theorem mem_doublings_iff (powerOfTwo : capacity.isPowerOfTwo) :
    larger ∈ doublings capacity ↔
      larger.isPowerOfTwo ∧ capacity < larger ∧ larger < Word.limit := by
  obtain ⟨k, rfl⟩ := powerOfTwo
  constructor
  · intro mem
    refine ⟨?_, lt_of_mem_doublings (Nat.two_pow_pos k) mem⟩
    obtain ⟨j, -, rfl⟩ := List.mem_map.mp mem
    exact ⟨k + (j + 1), by rw [Nat.shiftLeft_eq, Nat.pow_add 2 k]⟩
  · rintro ⟨⟨e, rfl⟩, less, below⟩
    have k_lt : k < e := (Nat.pow_lt_pow_iff_right (by decide)).mp less
    have e_lt : e < 64 := (Nat.pow_lt_pow_iff_right (a := 2) (by decide)).mp below
    refine List.mem_map.mpr ⟨e - k - 1, ?_, ?_⟩
    · rw [List.mem_range, Nat.log2_two_pow]
      omega
    · rw [Nat.shiftLeft_eq, ← Nat.pow_add]
      congr 1
      omega

/-- The doubles of a capacity increase. -/
theorem pairwise_doublings (positive : 0 < capacity) : (doublings capacity).Pairwise (· < ·) := by
  refine List.pairwise_map.mpr (List.pairwise_lt_range.imp ?_)
  intro i j before
  rw [Nat.shiftLeft_eq, Nat.shiftLeft_eq]
  exact Nat.mul_lt_mul_of_pos_left (Nat.pow_lt_pow_right (by decide) (by omega)) positive

/-- The doubles of a power of two are its products with powers of two that fit in 64 bits. -/
theorem mem_doublings_iff_exists (powerOfTwo : capacity.isPowerOfTwo) :
    larger ∈ doublings capacity ↔
      ∃ j, 1 ≤ j ∧ larger = capacity * 2 ^ j ∧ larger < Word.limit := by
  constructor
  · intro mem
    have below := ((mem_doublings_iff powerOfTwo).mp mem).2.2
    obtain ⟨j, -, rfl⟩ := List.mem_map.mp mem
    exact ⟨j + 1, by omega, Nat.shiftLeft_eq .., below⟩
  · rintro ⟨j, positive, rfl, below⟩
    have greater : capacity < capacity * 2 ^ j := by
      have two_le : 2 ^ 1 ≤ 2 ^ j := Nat.pow_le_pow_right (by decide) positive
      have capacity_pos := Nat.pos_of_isPowerOfTwo powerOfTwo
      calc
        capacity < capacity * 2 ^ 1 := by omega
        _ ≤ capacity * 2 ^ j := Nat.mul_le_mul_left _ two_le
    refine (mem_doublings_iff powerOfTwo).mpr ⟨?_, greater, below⟩
    obtain ⟨k, rfl⟩ := powerOfTwo
    exact ⟨k + j, (Nat.pow_add ..).symm⟩

/-- The doubles that come before one of them are those that are smaller. -/
theorem mem_before_of_lt (positive : 0 < capacity) {before after : List Nat} {smaller : Nat}
    (split : doublings capacity = before ++ larger :: after) (mem : smaller ∈ doublings capacity)
    (less : smaller < larger) : smaller ∈ before := by
  have increasing := pairwise_doublings positive
  rw [split] at mem increasing
  rcases List.mem_append.mp mem with early | late
  · exact early
  · rcases List.mem_cons.mp late with rfl | later
    · exact absurd less (Nat.lt_irrefl _)
    · have greater := List.rel_of_pairwise_cons (List.pairwise_append.mp increasing).2.1 later
      omega

end Capacity

/-! ### Allocations -/

theorem roundUp_mono {size size' : Nat} (le : size ≤ size') (alignment : Nat) :
    roundUp size alignment ≤ roundUp size' alignment :=
  Nat.mul_le_mul_right _ (Nat.div_le_div_right (by omega))

/-- Fewer groups fit one allocation where more of them do. -/
theorem Layout.Fits.mono {l : Layout} {slots groups groups' : Nat} (fits : l.Fits slots groups')
    (le : groups ≤ groups') : l.Fits slots groups :=
  (roundUp_mono (Nat.mul_le_mul_right _ le) _).trans fits

/-- Groups that fit one allocation are fewer than groups that do not. -/
theorem Layout.Fits.lt_of_not_fits {l : Layout} {slots groups groups' : Nat}
    (fits : l.Fits slots groups) (tooLarge : ¬l.Fits slots groups') : groups < groups' := by
  by_contra more
  exact tooLarge (fits.mono (Nat.le_of_not_lt more))

/-! ### Candidates -/

namespace Candidates

variable {capacity larger : Nat}

/-- Cutting a word down by a capacity less one takes its remainder by the capacity. -/
theorem toNat_and_mask (powerOfTwo : capacity.isPowerOfTwo) (fits : capacity ≤ Word.limit)
    (word : UInt64) :
    (word &&& UInt64.ofNat (capacity - 1)).toNat = word.toNat % capacity := by
  obtain ⟨k, rfl⟩ := powerOfTwo
  have bound : 2 ^ k - 1 < 2 ^ 64 := by
    have positive := Nat.two_pow_pos k
    have : 2 ^ k ≤ 2 ^ 64 := fits
    omega
  rw [UInt64.toNat_and, UInt64.toNat_ofNat', Nat.mod_eq_of_lt bound,
    Nat.and_two_pow_sub_one_eq_mod]

/-- Under the mask of a capacity, the candidates of a hash are the remainders of the whole hash
and of its upper half. -/
theorem ofHash_capacity (powerOfTwo : capacity.isPowerOfTwo) (fits : capacity ≤ Word.limit)
    (hash : UInt64) :
    ofHash (UInt64.ofNat (capacity - 1)) hash =
      ⟨hash.toNat % capacity, hash.toNat / 2 ^ 32 % capacity⟩ := by
  rw [ofHash, toNat_and_mask powerOfTwo fits, toNat_and_mask powerOfTwo fits,
    UInt64.toNat_shiftRight, Nat.shiftRight_eq_div_pow]
  rfl

/-- A power of two divides every greater one. -/
theorem dvd_of_isPowerOfTwo (powerOfTwo : capacity.isPowerOfTwo)
    (powerOfTwo' : larger.isPowerOfTwo) (le : capacity ≤ larger) : capacity ∣ larger := by
  obtain ⟨k, rfl⟩ := powerOfTwo
  obtain ⟨e, rfl⟩ := powerOfTwo'
  exact Nat.pow_dvd_pow 2 ((Nat.pow_le_pow_iff_right (by decide)).mp le)

end Candidates

namespace Table

variable {K : Type u} {V : Type v} {slots : Nat} [Key K] [DecidableEq K]
variable {s : Scheme K} {t t' : Table K V slots}

namespace WellFormed

theorem capacity_le_limit (wellFormed : t.WellFormed s) : t.capacity ≤ Word.limit := by
  have mask_succ := wellFormed.mask_succ
  have bound : t.mask.toNat < 2 ^ 64 := t.mask.toNat_lt
  show t.capacity ≤ 2 ^ 64
  omega

theorem mask_eq (wellFormed : t.WellFormed s) : t.mask = UInt64.ofNat (t.capacity - 1) := by
  have mask_succ := wellFormed.mask_succ
  rw [← mask_succ, Nat.add_sub_cancel, UInt64.ofNat_toNat]

/-- The candidates of a hash are remainders by the capacity. -/
theorem candidates_eq (wellFormed : t.WellFormed s) (hash : UInt64) :
    t.candidates hash =
      ⟨hash.toNat % t.capacity, hash.toNat / 2 ^ 32 % t.capacity⟩ := by
  rw [candidates, wellFormed.mask_eq]
  exact Candidates.ofHash_capacity wellFormed.isPowerOfTwo wellFormed.capacity_le_limit hash

/-- The first candidate in a larger table reduces to the first candidate. -/
theorem first_mod (wellFormed : t.WellFormed s) (wellFormed' : t'.WellFormed s)
    (le : t.capacity ≤ t'.capacity) (hash : UInt64) :
    (t'.candidates hash).first % t.capacity = (t.candidates hash).first := by
  have dvd := Candidates.dvd_of_isPowerOfTwo wellFormed.isPowerOfTwo wellFormed'.isPowerOfTwo le
  rw [wellFormed.candidates_eq, wellFormed'.candidates_eq, Nat.mod_mod_of_dvd _ dvd]

/-- The second candidate in a larger table reduces to the second candidate. -/
theorem second_mod (wellFormed : t.WellFormed s) (wellFormed' : t'.WellFormed s)
    (le : t.capacity ≤ t'.capacity) (hash : UInt64) :
    (t'.candidates hash).second % t.capacity = (t.candidates hash).second := by
  have dvd := Candidates.dvd_of_isPowerOfTwo wellFormed.isPowerOfTwo wellFormed'.isPowerOfTwo le
  rw [wellFormed.candidates_eq, wellFormed'.candidates_eq, Nat.mod_mod_of_dvd _ dvd]

end WellFormed

end Table

end TwoChoice
