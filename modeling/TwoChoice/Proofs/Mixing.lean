import Mathlib.Logic.Function.Iterate
import TwoChoice.Proofs.KeyFormats

/-!
# Mixing that can be undone

Each step of `Hash.avalanche` has an inverse, so no two words are mixed to one. An odd multiplier
has an inverse modulo `2 ^ 64`. A word combined with itself shifted by eight bits is restored by
doing that seven times more: twice is a shift by sixteen bits, four times one by thirty-two, and
eight times one by sixty-four, which leaves nothing to combine with.

An integer of at most 64 bits is told by the pattern that is mixed. So different keys have different
hashes, and both of their candidates are the same only if the mask removes every bit in which the
hashes differ.

## Main Definitions

* `Hash.foldRightBy`, `Hash.foldLeftBy` — a word combined with itself shifted by any distance
* `Hash.restore` — the word that is mixed to a given one

## Main Statements

* `Hash.foldRight_iterate_eight`, `Hash.foldLeft_iterate_eight` — folding eight times restores a
  word
* `Hash.restore_avalanche`, `Hash.avalanche_restore` — `Hash.restore` undoes `Hash.avalanche`
* `FixedInt.bits_injective` — integers of at most 64 bits are told by their patterns
* `Candidates.ofHash_eq_iff` — when two hashes name the same candidates
* `Hash.avalanche_separates` — different integers share candidates through the mask only
-/

namespace TwoChoice

universe u

namespace Hash

/-! ### Folds -/

/-- Combines a word with itself shifted right by some bits. -/
def foldRightBy {width : Nat} (distance : Nat) (x : BitVec width) : BitVec width :=
  x ^^^ x >>> distance

/-- Combines a word with itself shifted left by some bits. -/
def foldLeftBy {width : Nat} (distance : Nat) (x : BitVec width) : BitVec width :=
  x ^^^ x <<< distance

section Folds

variable {width : Nat}

/-- Folding twice is folding at twice the distance: what is shifted once meets itself. -/
theorem foldRightBy_twice (distance : Nat) (x : BitVec width) :
    foldRightBy distance (foldRightBy distance x) = foldRightBy (2 * distance) x := by
  unfold foldRightBy
  rw [BitVec.ushiftRight_xor_distrib, ← BitVec.shiftRight_add, Nat.two_mul, BitVec.xor_assoc,
    ← BitVec.xor_assoc (x >>> distance), BitVec.xor_self, BitVec.zero_xor]

theorem foldLeftBy_twice (distance : Nat) (x : BitVec width) :
    foldLeftBy distance (foldLeftBy distance x) = foldLeftBy (2 * distance) x := by
  unfold foldLeftBy
  rw [BitVec.shiftLeft_xor_distrib, ← BitVec.shiftLeft_add, Nat.two_mul, BitVec.xor_assoc,
    ← BitVec.xor_assoc (x <<< distance), BitVec.xor_self, BitVec.zero_xor]

/-- Nothing is left of a word that is shifted by its width. -/
theorem foldRightBy_width (x : BitVec width) : foldRightBy width x = x := by
  rw [foldRightBy, BitVec.ushiftRight_eq_zero (Nat.le_refl width), BitVec.xor_zero]

theorem foldLeftBy_width (x : BitVec width) : foldLeftBy width x = x := by
  rw [foldLeftBy, BitVec.shiftLeft_eq_zero (Nat.le_refl width), BitVec.xor_zero]

/-- Three doublings lead from eight to sixty-four. -/
theorem iterate_eight_of_twice {α : Type u} {fold : Nat → α → α}
    (twice : ∀ distance x, fold distance (fold distance x) = fold (2 * distance) x)
    (far : ∀ x, fold 64 x = x) (x : α) : (fold 8)^[8] x = x := by
  simp only [Function.iterate_succ, Function.iterate_zero, Function.comp_apply, id_eq, twice,
    Nat.reduceMul, far]

end Folds

theorem toBitVec_foldRight (x : UInt64) :
    (foldRight x).toBitVec = foldRightBy 8 x.toBitVec := by
  simp [foldRight, foldRightBy]

theorem toBitVec_foldLeft (x : UInt64) : (foldLeft x).toBitVec = foldLeftBy 8 x.toBitVec := by
  simp [foldLeft, foldLeftBy]

/-- Folding a word to the right eight times restores it. -/
theorem foldRight_iterate_eight (x : UInt64) : foldRight^[8] x = x := by
  apply UInt64.toBitVec_inj.mp
  rw [Function.Semiconj.iterate_right toBitVec_foldRight 8 x]
  exact iterate_eight_of_twice foldRightBy_twice foldRightBy_width x.toBitVec

/-- Folding a word to the left eight times restores it. -/
theorem foldLeft_iterate_eight (x : UInt64) : foldLeft^[8] x = x := by
  apply UInt64.toBitVec_inj.mp
  rw [Function.Semiconj.iterate_right toBitVec_foldLeft 8 x]
  exact iterate_eight_of_twice foldLeftBy_twice foldLeftBy_width x.toBitVec

/-! ### The inverse -/

/-- The inverse of the first multiplier modulo `2 ^ 64`. -/
def firstInverse : UInt64 := 0x0887493432BADB37

/-- The inverse of the second multiplier modulo `2 ^ 64`. -/
def secondInverse : UInt64 := 0xC592C09FDFBA7F0D

theorem firstMultiplier_mul_firstInverse : firstMultiplier * firstInverse = 1 := by
  decide

theorem secondMultiplier_mul_secondInverse : secondMultiplier * secondInverse = 1 := by
  decide

/-- The word that is folded to the right to a given one. -/
def unfoldRight (x : UInt64) : UInt64 :=
  foldRight^[7] x

/-- The word that is folded to the left to a given one. -/
def unfoldLeft (x : UInt64) : UInt64 :=
  foldLeft^[7] x

theorem unfoldRight_foldRight (x : UInt64) : unfoldRight (foldRight x) = x :=
  foldRight_iterate_eight x

theorem unfoldLeft_foldLeft (x : UInt64) : unfoldLeft (foldLeft x) = x :=
  foldLeft_iterate_eight x

theorem foldRight_unfoldRight (x : UInt64) : foldRight (unfoldRight x) = x := by
  rw [unfoldRight, ← Function.iterate_succ_apply' foldRight]
  exact foldRight_iterate_eight x

theorem foldLeft_unfoldLeft (x : UInt64) : foldLeft (unfoldLeft x) = x := by
  rw [unfoldLeft, ← Function.iterate_succ_apply' foldLeft]
  exact foldLeft_iterate_eight x

/-- The word that is mixed to a given one: the three turns, undone from the last to the first. -/
def restore (y : UInt64) : UInt64 :=
  unfoldRight (unfoldLeft (unfoldRight y * secondInverse) - increment) * firstInverse

/-- Mixing a word and restoring it leads back to it. -/
theorem restore_avalanche (x : UInt64) : restore (avalanche x) = x := by
  rw [restore, avalanche, unfoldRight_foldRight, UInt64.mul_assoc,
    secondMultiplier_mul_secondInverse, UInt64.mul_one, unfoldLeft_foldLeft, UInt64.add_sub_cancel,
    unfoldRight_foldRight, UInt64.mul_assoc, firstMultiplier_mul_firstInverse, UInt64.mul_one]

/-- Restoring a word and mixing it again leads back to it. -/
theorem avalanche_restore (y : UInt64) : avalanche (restore y) = y := by
  have first : firstInverse * firstMultiplier = 1 := by
    rw [UInt64.mul_comm, firstMultiplier_mul_firstInverse]
  have second : secondInverse * secondMultiplier = 1 := by
    rw [UInt64.mul_comm, secondMultiplier_mul_secondInverse]
  rw [avalanche, restore, UInt64.mul_assoc, first, UInt64.mul_one, foldRight_unfoldRight,
    UInt64.sub_add_cancel, foldLeft_unfoldLeft, UInt64.mul_assoc, second, UInt64.mul_one,
    foldRight_unfoldRight]

/-- Mixing is a permutation of the 64-bit words. -/
theorem avalanche_bijective : Function.Bijective avalanche :=
  ⟨Function.LeftInverse.injective restore_avalanche,
    Function.RightInverse.surjective avalanche_restore⟩

end Hash

/-! ### Keys -/

/-- Keys that are told by their patterns are told by their hashes, if no two patterns are mixed to
one. -/
theorem Scheme.hash_injective_ofMixer {K : Type u} [Key K] {mix : UInt64 → UInt64}
    (mixed : Function.Injective mix) (told : Function.Injective (Key.bits : K → UInt64))
    (layout : Layout) : Function.Injective (Scheme.ofMixer (K := K) mix layout).hash :=
  mixed.comp told

/-- The numbers of a format of at most 64 bits do not span more than there are words. -/
theorem IntFormat.greatest_sub_least_lt {f : IntFormat} (narrow : f.width ≤ 64) :
    f.greatest - f.least < 2 ^ 64 := by
  have half_le : 2 ^ (f.width - 1) ≤ 2 ^ 63 := Nat.pow_le_pow_right (by decide) (by omega)
  have whole_le : 2 ^ f.width ≤ 2 ^ 64 := Nat.pow_le_pow_right (by decide) narrow
  unfold greatest least
  rw [Nat.one_shiftLeft, Nat.one_shiftLeft]
  split <;> omega

/-- Integers of at most 64 bits are told by their patterns, with or without a sign. -/
theorem FixedInt.bits_injective {f : IntFormat} (narrow : f.width ≤ 64) :
    Function.Injective (FixedInt.bits : FixedInt f → UInt64) := by
  intro a b same
  have patterns := congrArg UInt64.toBitVec same
  rw [toBitVec_bits, toBitVec_bits] at patterns
  have remainders := congrArg (fun x : BitVec 64 => (x.toNat : Int)) patterns
  simp only [BitVec.toNat_ofInt] at remainders
  -- Two numbers with the same remainder that are closer than the modulus are the same.
  have span := IntFormat.greatest_sub_least_lt narrow
  have a_ge := a.least_le
  have a_le := a.le_greatest
  have b_ge := b.least_le
  have b_le := b.le_greatest
  apply FixedInt.ext
  omega

/-! ### Candidates -/

/-- Two words agree in the bits of a mask exactly if it removes all bits in which they differ. -/
theorem Word.and_eq_and_iff (x y mask : UInt64) :
    x &&& mask = y &&& mask ↔ (x ^^^ y) &&& mask = 0 := by
  have difference_eq : (x ^^^ y) &&& mask = (x &&& mask) ^^^ (y &&& mask) := by
    apply UInt64.toNat_inj.mp
    simp only [UInt64.toNat_xor, UInt64.toNat_and, Nat.and_xor_distrib_right]
  rw [difference_eq, UInt64.xor_eq_zero_iff]

/-- Two hashes name the same candidates exactly if the mask removes all bits in which they differ,
from both halves. -/
theorem Candidates.ofHash_eq_iff (mask hash hash' : UInt64) :
    Candidates.ofHash mask hash = Candidates.ofHash mask hash' ↔
      (hash ^^^ hash') &&& mask = 0 ∧ ((hash ^^^ hash') >>> 32) &&& mask = 0 := by
  rw [UInt64.shiftRight_xor, ← Word.and_eq_and_iff, ← Word.and_eq_and_iff, Candidates.ofHash,
    Candidates.ofHash, Candidates.mk.injEq, UInt64.toNat_inj, UInt64.toNat_inj]

/-- A mask that keeps all bits of a half removes no bit of a hash. -/
theorem Candidates.eq_of_ofHash_eq {mask hash hash' : UInt64}
    (wide : mask &&& 0xFFFFFFFF = 0xFFFFFFFF)
    (same : Candidates.ofHash mask hash = Candidates.ofHash mask hash') : hash = hash' := by
  obtain ⟨lower, upper⟩ := (Candidates.ofHash_eq_iff mask hash hash').mp same
  have lowerHalf_eq (x : UInt64) (removed : x &&& mask = 0) : x.toNat % 2 ^ 32 = 0 := by
    have none : x &&& 0xFFFFFFFF = 0 := by
      rw [← wide, ← UInt64.and_assoc, removed, UInt64.zero_and]
    rw [← Nat.and_two_pow_sub_one_eq_mod]
    exact congrArg UInt64.toNat none
  have upperHalf_eq : ((hash ^^^ hash') >>> 32).toNat = (hash ^^^ hash').toNat / 2 ^ 32 := by
    rw [UInt64.toNat_shiftRight, Nat.shiftRight_eq_div_pow]
    rfl
  have lower_eq := lowerHalf_eq _ lower
  have upper_eq := lowerHalf_eq _ upper
  have below := (hash ^^^ hash').toNat_lt
  apply UInt64.xor_eq_zero_iff.mp
  apply UInt64.toNat_inj.mp
  rw [UInt64.toNat_zero]
  omega

/-- Two hashes that differ, and that name the same candidates through a mask only. -/
structure Candidates.SharedByMask (hash hash' : UInt64) : Prop where
  /-- The hashes are not the same. -/
  hashes_ne : hash ≠ hash'
  /-- Their candidates are the same exactly if the mask removes all bits in which they differ. -/
  same_iff : ∀ mask, Candidates.ofHash mask hash = Candidates.ofHash mask hash' ↔
    (hash ^^^ hash') &&& mask = 0 ∧ ((hash ^^^ hash') >>> 32) &&& mask = 0
  /-- They are not the same under a mask that keeps all bits of a half. -/
  candidates_ne : ∀ mask, mask &&& 0xFFFFFFFF = 0xFFFFFFFF →
    Candidates.ofHash mask hash ≠ Candidates.ofHash mask hash'

theorem Candidates.sharedByMask_of_ne {hash hash' : UInt64} (hashes_ne : hash ≠ hash') :
    Candidates.SharedByMask hash hash' where
  hashes_ne := hashes_ne
  same_iff mask := Candidates.ofHash_eq_iff mask hash hash'
  candidates_ne _ wide same := hashes_ne (Candidates.eq_of_ofHash_eq wide same)

/-- Mixing is a permutation of the 64-bit words. So two different integers of a format of at most 64
bits have different hashes, and can share both candidates through the mask only. -/
theorem Hash.avalanche_separates :
    (∀ y, ∃! x, Hash.avalanche x = y) ∧
      ∀ f : IntFormat, f.width ≤ 64 → ∀ (layout : Layout) (a b : FixedInt f), a ≠ b →
        Candidates.SharedByMask ((Scheme.ofMixer Hash.avalanche layout).hash a)
          ((Scheme.ofMixer Hash.avalanche layout).hash b) := by
  have mixed := Hash.avalanche_bijective
  refine ⟨fun y => mixed.existsUnique y, fun f narrow layout a b different => ?_⟩
  have told := FixedInt.bits_injective narrow
  have hashed := Scheme.hash_injective_ofMixer mixed.injective told layout
  exact Candidates.sharedByMask_of_ne (hashed.ne different)

/-- Two signed numbers of eight bits, one of them negative, that have the same candidates among
eight groups. Their hashes differ, so they have others among `2 ^ 32` groups. -/
theorem Hash.avalanche_separates_signed :
    ∃ a b : FixedInt (.twosComplement 8), a.val = -5 ∧ b.val = 10 ∧
      Candidates.ofHash 7 (Hash.avalanche a.bits) = Candidates.ofHash 7 (Hash.avalanche b.bits) ∧
      Candidates.SharedByMask (Hash.avalanche a.bits) (Hash.avalanche b.bits) ∧
      Candidates.ofHash 0xFFFFFFFF (Hash.avalanche a.bits) ≠
        Candidates.ofHash 0xFFFFFFFF (Hash.avalanche b.bits) := by
  let a : FixedInt (.twosComplement 8) := ⟨-5, by decide, by decide⟩
  let b : FixedInt (.twosComplement 8) := ⟨10, by decide, by decide⟩
  have different : a ≠ b := by decide
  have separated : Candidates.SharedByMask (Hash.avalanche a.bits) (Hash.avalanche b.bits) :=
    Hash.avalanche_separates.2 _ (by decide) ⟨1, 1, 8, 8⟩ a b different
  exact ⟨a, b, rfl, rfl, by decide, separated, separated.candidates_ne 0xFFFFFFFF rfl⟩

end TwoChoice
