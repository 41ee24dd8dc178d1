import Mathlib.Order.Bounds.Basic
import TwoChoice.Proofs.Allocation

/-!
# How bytes are arranged

A group has its keys first and its values after them, with as little padding as the alignments
allow. So has an allocation its groups, which fill whole cache lines. Sizes are told by rounding up,
and rounding up yields the least multiple of an alignment that is large enough. That is what makes
the sizes of groups and of allocations the least that there can be.

## Main Definitions

* `Layout.Natural` — a layout whose alignments are powers of two
* `Layout.Arranges` — where the values of a group begin, and where the group ends
* `Layout.Pads` — where an allocation of some groups ends

## Main Statements

* `isLeast_roundUp` — rounding up yields the least multiple of an alignment
* `Layout.Natural.arranges` — a group ends as early as its alignments allow
* `Layout.fits_iff` — groups fit one allocation exactly if it does not end too late
-/

namespace TwoChoice

/-- Rounding up yields the least multiple of an alignment that is not below a size. -/
theorem isLeast_roundUp {alignment : Nat} (positive : 0 < alignment) (size : Nat) :
    IsLeast {n | alignment ∣ n ∧ size ≤ n} (roundUp size alignment) := by
  refine ⟨⟨Nat.dvd_mul_left _ _, le_roundUp positive size⟩, ?_⟩
  rintro _ ⟨⟨times, rfl⟩, le⟩
  rw [roundUp, Nat.mul_comm alignment]
  refine Nat.mul_le_mul_right alignment (Nat.lt_succ_iff.mp ?_)
  rw [Nat.div_lt_iff_lt_mul positive, Nat.succ_mul, Nat.mul_comm times]
  omega

namespace Layout

variable {l : Layout} {slots groups bytes : Nat}

/-- The alignments of a layout are powers of two, as the alignment of every type is. -/
structure Natural (l : Layout) : Prop where
  /-- The alignment of keys is a power of two. -/
  keyAlignment : l.keyAlignment.isPowerOfTwo
  /-- The alignment of values is a power of two. -/
  valueAlignment : l.valueAlignment.isPowerOfTwo

theorem Natural.aligned (natural : l.Natural) : l.Aligned :=
  ⟨Nat.pos_of_isPowerOfTwo natural.keyAlignment, Nat.pos_of_isPowerOfTwo natural.valueAlignment⟩

/-- The keys of a group lie at its beginning. Its values begin at the first multiple of their
alignment after the keys, and the group ends at the first multiple of both alignments after the
values. -/
structure Arranges (l : Layout) (slots offset bytes : Nat) : Prop where
  /-- The values begin as early as they can. -/
  values : IsLeast {n | l.valueAlignment ∣ n ∧ l.keyBytes * slots ≤ n} offset
  /-- The group ends as early as it can. -/
  ends : IsLeast {n | l.keyAlignment ∣ n ∧ l.valueAlignment ∣ n ∧
    offset + l.valueBytes * slots ≤ n} bytes

/-- A number is a multiple of both alignments exactly if it is one of the larger. -/
theorem Natural.groupAlignment_dvd_iff (natural : l.Natural) (n : Nat) :
    l.groupAlignment ∣ n ↔ l.keyAlignment ∣ n ∧ l.valueAlignment ∣ n := by
  unfold groupAlignment
  rcases Nat.le_total l.keyAlignment l.valueAlignment with le | le
  · have dvd := Candidates.dvd_of_isPowerOfTwo natural.keyAlignment natural.valueAlignment le
    rw [Nat.max_eq_right le]
    exact ⟨fun multiple => ⟨dvd.trans multiple, multiple⟩, And.right⟩
  · have dvd := Candidates.dvd_of_isPowerOfTwo natural.valueAlignment natural.keyAlignment le
    rw [Nat.max_eq_left le]
    exact ⟨fun multiple => ⟨multiple, dvd.trans multiple⟩, And.left⟩

/-- A group ends as early as its alignments allow. -/
theorem Natural.arranges (natural : l.Natural) (slots : Nat) :
    l.Arranges slots (roundUp (l.keyBytes * slots) l.valueAlignment) (l.groupBytes slots) where
  values := isLeast_roundUp natural.aligned.valueAlignment_pos _
  ends := by
    have positive : 0 < l.groupAlignment :=
      natural.aligned.keyAlignment_pos.trans_le (Nat.le_max_left ..)
    have least := isLeast_roundUp positive
      (roundUp (l.keyBytes * slots) l.valueAlignment + l.valueBytes * slots)
    simp only [natural.groupAlignment_dvd_iff, and_assoc] at least
    exact least

/-- An allocation of some groups ends at the end of a cache line, as early as the groups allow. -/
def Pads (l : Layout) (slots groups bytes : Nat) : Prop :=
  IsLeast {n | l.target.cacheLine ∣ n ∧ groups * l.groupBytes slots ≤ n} bytes

theorem pads_roundUp (l : Layout) (slots groups : Nat) :
    l.Pads slots groups (roundUp (groups * l.groupBytes slots) l.target.cacheLine) :=
  isLeast_roundUp l.target.cacheLine_pos _

/-- Groups whose alignment is not more than a cache line fit one allocation exactly if it does not
end too late. -/
theorem fits_iff (fine : l.groupAlignment ≤ l.target.cacheLine)
    (pads : l.Pads slots groups bytes) : l.Fits slots groups ↔ bytes ≤ largestAllocation := by
  rw [Fits, allocationBytes, Nat.max_eq_left fine, (l.pads_roundUp slots groups).unique pads]

/-- Eight groups of a key and a value of four bytes each fill one cache line, which is shorter on
some machines than on others. -/
example : (⟨4, 4, 4, 4⟩ : Layout).Pads 1 8 64 ∧ (@Layout.mk 4 4 4 4 Target.apple).Pads 1 8 128 :=
  ⟨pads_roundUp _ 1 8, pads_roundUp _ 1 8⟩

end Layout

end TwoChoice
